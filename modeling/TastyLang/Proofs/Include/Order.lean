import Mathlib.Data.List.Induction
import TastyLang.Proofs.Include.Placement

/-!
# The order of includes

The lists of the header and of the source after any row of requests. An entry is in the list of the
header if the header asked for it, and in the list of the source if only the source did. Each list
follows the requests that put its entries there, so that no entry stands in a list twice
(`lists_exact`). An entry that the header asks for later on keeps its old place behind the scenes,
which is why the order of the source is shown for all entries that the source ever had.
-/

namespace TastyLang

/-! ### Places of first occurrences -/

section

variable {α β : Type} [BEq β] [LawfulBEq β] {f : α → β} {xs : List α} {ys : List β} {x : α} {y : β}

/-- The entries `xs` stand in the order in which they first occur in `ys`. -/
def InOrderOf (f : α → β) (ys : List β) (xs : List α) : Prop :=
  xs.Pairwise fun a b => ys.idxOf (f a) < ys.idxOf (f b)

theorem InOrderOf.append (h : InOrderOf f ys xs) (known : ∀ a ∈ xs, f a ∈ ys) :
    InOrderOf f (ys ++ [y]) xs := by
  refine List.Pairwise.imp_of_mem (fun {a b} first second less => ?_) h
  rwa [List.idxOf_append_of_mem (known a first), List.idxOf_append_of_mem (known b second)]

theorem InOrderOf.concat (h : InOrderOf f ys xs) (known : ∀ a ∈ xs, f a ∈ ys) (new : f x ∉ ys) :
    InOrderOf f (ys ++ [f x]) (xs ++ [x]) := by
  refine List.pairwise_append.mpr ⟨h.append known, List.pairwise_singleton _ _, ?_⟩
  intro a member b last
  obtain rfl := List.mem_singleton.mp last
  have early := List.idxOf_lt_length_iff.mpr (known a member)
  rw [List.idxOf_append_of_mem (known a member), List.idxOf_append_of_notMem new]
  omega

omit [LawfulBEq β] in
theorem InOrderOf.nodup (h : InOrderOf f ys xs) : xs.Nodup :=
  h.imp fun less same => absurd (same ▸ less) (Nat.lt_irrefl _)

end

namespace IncludeSet

/-- Entries stand where they were first asked for: those of the header by the first request of the
header, those that the source once had by the first request of all. -/
structure Follows (s : IncludeSet) (es : List (IncludeEntry × Bool)) : Prop where
  header : InOrderOf (fun e => (e, true)) es s.header
  sourced : InOrderOf id (es.map Prod.fst) s.sourced

variable {s : IncludeSet} {es : List (IncludeEntry × Bool)}

theorem Follows.add (h : s.Follows es) (x : IncludeEntry) (inHeader : Bool)
    (header : ∀ e, e ∈ s.header ↔ e.path ≠ "" ∧ (e, true) ∈ es)
    (asked : ∀ e, s.Has e ↔ e.path ≠ "" ∧ ∃ b, (e, b) ∈ es) :
    (s.add x inHeader).Follows (es ++ [(x, inHeader)]) := by
  have inFront : ∀ e ∈ s.header, (e, true) ∈ es := fun e member => ((header e).mp member).2
  have inBack : ∀ e ∈ s.sourced, id e ∈ es.map Prod.fst := by
    intro e member
    obtain ⟨-, b, known⟩ := (asked e).mp (has_iff.mpr (.inr member))
    exact List.mem_map_of_mem known
  have kept : s.Follows (es ++ [(x, inHeader)]) := by
    refine ⟨h.header.append inFront, ?_⟩
    rw [List.map_append]
    exact h.sourced.append inBack
  unfold IncludeSet.add
  split
  · exact kept
  · next counts =>
    simp only [Bool.or_eq_true, decide_eq_true_eq, List.contains_iff_mem, not_or] at counts
    obtain ⟨named, new⟩ := counts
    cases inHeader with
    | true =>
      exact ⟨h.header.concat inFront fun known => new ((header x).mpr ⟨named, known⟩), kept.sourced⟩
    | false =>
      rw [if_neg Bool.false_ne_true]
      split
      · exact kept
      · next unknown =>
        refine ⟨kept.header, ?_⟩
        rw [List.map_append]
        refine h.sourced.concat (x := x) inBack fun known => ?_
        obtain ⟨⟨e, b⟩, member, rfl⟩ := List.mem_map.mp known
        rcases has_iff.mp ((asked e).mpr ⟨named, b, member⟩) with inHeader | inSource
        · exact new inHeader
        · exact unknown (List.contains_iff_mem.mpr inSource)

theorem mem_header_iff {e : IncludeEntry} :
    e ∈ (({} : IncludeSet).addAll es).header ↔ e.path ≠ "" ∧ (e, true) ∈ es :=
  mem_header_addAll.trans (or_iff_right List.not_mem_nil)

theorem has_iff_asked {e : IncludeEntry} :
    (({} : IncludeSet).addAll es).Has e ↔ e.path ≠ "" ∧ ∃ b, (e, b) ∈ es :=
  has_addAll.trans (or_iff_right (by simp [has_iff]))

theorem follows_addAll (es : List (IncludeEntry × Bool)) : (({} : IncludeSet).addAll es).Follows es := by
  induction es using List.reverseRecOn with
  | nil => exact ⟨List.Pairwise.nil, List.Pairwise.nil⟩
  | append_singleton es x ih =>
    have last : ({} : IncludeSet).addAll (es ++ [x]) = (({} : IncludeSet).addAll es).add x.1 x.2 :=
      List.foldl_concat ..
    rw [last]
    exact ih.add x.1 x.2 (fun _ => mem_header_iff) (fun _ => has_iff_asked)

/-- Include lists are exact. Whatever is asked for in whatever order: no list has an entry twice, and
no entry is in both; the header has what the header asked for and the source what only the source
asked for, but never an entry without a path; and the entries stand in the order of the first
requests that put them into their list. -/
theorem lists_exact (es : List (IncludeEntry × Bool)) :
    let s := ({} : IncludeSet).addAll es
    (s.header.Nodup ∧ s.source.Nodup ∧ s.header.Disjoint s.source) ∧
    (∀ e, e ∈ s.header ↔ e.path ≠ "" ∧ (e, true) ∈ es) ∧
    (∀ e, e ∈ s.source ↔ e.path ≠ "" ∧ (e, false) ∈ es ∧ (e, true) ∉ es) ∧
    (s.header.Pairwise fun e e' => es.idxOf (e, true) < es.idxOf (e', true)) ∧
    s.source.Pairwise fun e e' => (es.map Prod.fst).idxOf e < (es.map Prod.fst).idxOf e' := by
  intro s
  have order : s.Follows es := follows_addAll es
  have sources : InOrderOf id (es.map Prod.fst) s.source := order.sourced.sublist List.filter_sublist
  have left (e : IncludeEntry) : e ∈ s.source ↔ s.Has e ∧ e ∉ s.header := by
    rw [Has, or_and_right, and_not_self_iff, false_or]
    refine ⟨fun member => ⟨member, ?_⟩, And.left⟩
    simpa using (List.mem_filter.mp member).2
  refine ⟨⟨order.header.nodup, sources.nodup, fun e member => ?_⟩, fun e => mem_header_iff, fun e => ?_,
    order.header, sources⟩
  · exact fun twice => ((left e).mp twice).2 member
  · have asked : s.Has e ↔ e.path ≠ "" ∧ ∃ b, (e, b) ∈ es := has_iff_asked
    have header : e ∈ s.header ↔ e.path ≠ "" ∧ (e, true) ∈ es := mem_header_iff
    rw [left, asked, header, Bool.exists_bool]
    tauto

/-- The header asks for an entry that the source had, and for one without a path. -/
example :
    let s := ({} : IncludeSet).addAll [(⟨"vector", false⟩, false), (⟨"string", false⟩, true),
      (⟨"vector", false⟩, false), (⟨"map", false⟩, false), (⟨"vector", false⟩, true), (⟨"", false⟩, true)]
    s.header = [⟨"string", false⟩, ⟨"vector", false⟩] ∧ s.source = [⟨"map", false⟩] := by
  decide

end IncludeSet

end TastyLang
