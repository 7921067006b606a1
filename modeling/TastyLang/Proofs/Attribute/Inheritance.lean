import Mathlib.Data.Finset.Card
import Mathlib.Data.List.Find
import TastyLang.Proofs.Attribute.Composition
import TastyLang.Proofs.Evaluation
import TastyLang.Proofs.Resolution.Hoisting

/-!
# What classes inherit

A class inherits what its local bases pass on: what they inherit themselves, then the texts of their
own attributes. `inheritance` finds this out in one walk that keeps what it knows. What is known is
always closed under the bases (`Closed`), so that where no class extends itself the result solves the
recursion, and there is no other solution (`File.expand_inherits`).
-/

namespace TastyLang

namespace Attribute

open Relation

section

variable {hs : List Heir} {known known' : List (Span × List String)} {s s' : Estate} {a b span : Span}

/-- The class `a` extends the class `b`. -/
def Extends (hs : List Heir) (a b : Span) : Prop :=
  ∃ h, hs.find? (·.span = a) = some h ∧ b ∈ h.bases ∧ b ∈ hs.map (·.span)

/-- What a class passes on when `known` is inherited. -/
def passed (hs : List Heir) (known : List (Span × List String)) (span : Span) : List String :=
  match hs.find? (·.span = span) with
  | some h => (known.lookup span).getD [] ++ h.own
  | none => []

/-- A class is known with its bases, and with what they pass on. -/
def Closed (hs : List Heir) (known : List (Span × List String)) : Prop :=
  ∀ span texts, known.lookup span = some texts → ∃ h, hs.find? (·.span = span) = some h ∧
    (∀ b ∈ h.bases, b ∈ hs.map (·.span) → (known.lookup b).isSome) ∧
    texts = h.bases.flatMap (passed hs known)

def Kept (known known' : List (Span × List String)) : Prop :=
  ∀ span texts, known.lookup span = some texts → known'.lookup span = some texts

theorem Kept.isSome (kept : Kept known known') (here : (known.lookup span).isSome) :
    (known'.lookup span).isSome := by
  obtain ⟨texts, found⟩ := Option.isSome_iff_exists.mp here
  exact Option.isSome_of_mem (kept span texts found)

theorem find?_isSome_iff : (hs.find? (·.span = span)).isSome ↔ span ∈ hs.map (·.span) := by
  simp [List.find?_isSome]

theorem Kept.passed_eq (kept : Kept known known')
    (here : span ∈ hs.map (·.span) → (known.lookup span).isSome) :
    passed hs known' span = passed hs known span := by
  unfold passed
  cases found : hs.find? (·.span = span) with
  | none => rfl
  | some h =>
    obtain ⟨texts, known⟩ :=
      Option.isSome_iff_exists.mp (here (find?_isSome_iff.mp (by rw [found]; rfl)))
    rw [known, kept span texts known]

/-! ### The walk -/

/-- How many classes a class extends, directly or not. -/
noncomputable def height (hs : List Heir) (a : Span) : Nat :=
  open Classical in ((hs.map (·.span)).toFinset.filter (TransGen (Extends hs) a)).card

theorem height_le (hs : List Heir) (a : Span) : height hs a ≤ hs.length := by
  classical
  rw [height]
  refine (Finset.card_filter_le _ _).trans ?_
  exact (List.toFinset_card_le _).trans (List.length_map _).le

theorem height_lt (acyclic : ∀ c, ¬ TransGen (Extends hs) c c) (extend : Extends hs a b) :
    height hs b < height hs a := by
  classical
  have here : b ∈ hs.map (·.span) := extend.choose_spec.2.2
  rw [height, height]
  refine Finset.card_lt_card (Finset.ssubset_iff_of_subset ?_ |>.mpr ⟨b, ?_, ?_⟩)
  · intro c member
    rw [Finset.mem_filter] at member ⊢
    exact ⟨member.1, .head extend member.2⟩
  · exact Finset.mem_filter.mpr ⟨List.mem_toFinset.mpr here, .single extend⟩
  · rw [Finset.mem_filter]
    exact fun member => acyclic b member.2

/-- What a part of the walk leaves: it forgets nothing, and all classes that it has met are known. -/
structure Grown (hs : List Heir) (s s' : Estate) : Prop where
  closed : Closed hs s'.known
  kept : Kept s.known s'.known
  visited : ∀ v ∈ s'.visiting, v ∈ s.visiting ∨ (s'.known.lookup v).isSome

theorem Grown.refl (closed : Closed hs s.known) : Grown hs s s :=
  ⟨closed, fun _ _ found => found, fun _ => .inl⟩

theorem Grown.trans {s'' : Estate} (first : Grown hs s s') (rest : Grown hs s' s'') :
    Grown hs s s'' := by
  refine ⟨rest.closed, fun _ _ found => rest.kept _ _ (first.kept _ _ found), fun v member => ?_⟩
  rcases rest.visited v member with member | known
  · exact (first.visited v member).imp_right rest.kept.isSome
  · exact .inr known

/-- The classes on the way are known or extend the class that is asked for. -/
def Estate.Leads (hs : List Heir) (s : Estate) (span : Span) : Prop :=
  ∀ v ∈ s.visiting, (s.known.lookup v).isSome ∨
    (span ∈ hs.map (·.span) → TransGen (Extends hs) v span)

theorem Estate.Leads.grown (leads : s.Leads hs span) (grown : Grown hs s s') : s'.Leads hs span :=
  fun v member => (grown.visited v member).elim
    (fun member => (leads v member).imp_left grown.kept.isSome) .inl

/-- A part of the walk asks for `spans` and finds `texts`. -/
structure Finds (hs : List Heir) (spans : List Span) (s : Estate) (texts : List (List String))
    (s' : Estate) : Prop extends Grown hs s s' where
  texts_eq : texts = spans.map (passed hs s'.known)
  found : ∀ b ∈ spans, b ∈ hs.map (·.span) → (s'.known.lookup b).isSome

theorem run_bind {σ α β : Type} {m : StateM σ α} {f : α → StateM σ β} {s s' : σ} {a : α}
    (run : m s = (a, s')) : (m >>= f) s = f a s' := by
  change (match m s with | (a, s) => f a s) = _
  rw [run]

theorem run_get {σ : Type} (s : σ) : (get : StateM σ σ) s = (s, s) := rfl

theorem run_modify {σ : Type} (f : σ → σ) (s : σ) : (modify f : StateM σ Unit) s = ((), f s) := rfl

theorem pass_known {h : Heir} (here : hs.find? (·.span = span) = some h)
    (known : (s.known.lookup span).isSome) (n : Nat) :
    pass hs (n + 1) span s = ((s.known.lookup span).getD [] ++ h.own, s) := by
  have skip : ((s.known.lookup span).isNone && !s.visiting.contains span) = false := by
    rw [Option.isNone_eq_false_iff.mpr known, Bool.false_and]
  rw [pass, here]
  dsimp only
  rw [run_bind (run_get s), skip, if_neg Bool.false_ne_true]
  rfl

theorem pass_new {h : Heir} {n : Nat} {texts : List (List String)}
    (here : hs.find? (·.span = span) = some h) (unknown : ¬ (s.known.lookup span).isSome)
    (fresh : span ∉ s.visiting)
    (run : h.bases.mapM (pass hs n) { s with visiting := span :: s.visiting } = (texts, s')) :
    pass hs (n + 1) span s = (texts.flatten ++ h.own,
      { s' with known := (span, texts.flatten) :: s'.known }) := by
  have enter : ((s.known.lookup span).isNone && !s.visiting.contains span) = true := by
    rw [Option.not_isSome_iff_eq_none.mp unknown, List.contains_eq_mem, decide_eq_false fresh]
    rfl
  rw [pass, here]
  dsimp only
  rw [run_bind (run_get s), if_pos enter, run_bind (run_modify _ s), run_bind run,
    run_bind (run_modify _ s'), run_bind (run_get _), List.lookup_cons, beq_self_eq_true]
  rfl

theorem finds_all {ask : Span → StateM Estate (List String)} {bs : List Span}
    (each : ∀ b ∈ bs, ∀ s : Estate, Closed hs s.known → s.Leads hs b →
      ∃ texts s', ask b s = (texts, s') ∧ Finds hs [b] s [texts] s')
    (closed : Closed hs s.known) (leads : ∀ b ∈ bs, s.Leads hs b) :
    ∃ texts s', bs.mapM ask s = (texts, s') ∧ Finds hs bs s texts s' := by
  induction bs generalizing s with
  | nil => exact ⟨[], s, rfl, .refl closed, rfl, fun b member => absurd member List.not_mem_nil⟩
  | cons b bs ih =>
    obtain ⟨own, s₁, run, first⟩ := each b List.mem_cons_self s closed (leads b List.mem_cons_self)
    obtain ⟨texts, s₂, runs, rest⟩ := ih (fun b member => each b (List.mem_cons_of_mem _ member))
      first.closed fun b member => (leads b (List.mem_cons_of_mem _ member)).grown first.toGrown
    refine ⟨own :: texts, s₂, ?_, first.toGrown.trans rest.toGrown, ?_, ?_⟩
    · rw [List.mapM_cons, run_bind run, run_bind runs]
      rfl
    · have here : own = passed hs s₁.known b := List.head_eq_of_cons_eq first.texts_eq
      rw [List.map_cons, rest.texts_eq, here,
        rest.kept.passed_eq (first.found b (List.mem_singleton.mpr rfl))]
    · intro c member inside
      rcases List.mem_cons.mp member with rfl | member
      · exact rest.kept.isSome (first.found c (List.mem_singleton.mpr rfl) inside)
      · exact rest.found c member inside

theorem Finds.note {h : Heir} {texts : List (List String)}
    (here : hs.find? (·.span = span) = some h)
    (finds : Finds hs h.bases { s with visiting := span :: s.visiting } texts s') :
    Grown hs s { s' with known := (span, texts.flatten) :: s'.known } := by
  have whole : texts.flatten = h.bases.flatMap (passed hs s'.known) := by
    rw [finds.texts_eq, List.flatMap_def]
  have kept : Kept s'.known ((span, texts.flatten) :: s'.known) := by
    intro c ts found
    by_cases same : c = span
    · subst same
      obtain ⟨h', here', -, rfl⟩ := finds.closed _ _ found
      obtain rfl := Option.some.inj (here.symm.trans here')
      rw [List.lookup_cons, beq_self_eq_true, whole]
    · rw [List.lookup_cons, beq_false_of_ne same, found]
  have stands {bases : List Span}
      (known : ∀ b ∈ bases, b ∈ hs.map (·.span) → (s'.known.lookup b).isSome) :
      (∀ b ∈ bases, b ∈ hs.map (·.span) →
        (((span, texts.flatten) :: s'.known).lookup b).isSome) ∧
      bases.flatMap (passed hs s'.known) =
        bases.flatMap (passed hs ((span, texts.flatten) :: s'.known)) :=
    ⟨fun b member inside => kept.isSome (known b member inside),
      List.flatMap_congr fun b member => (kept.passed_eq (known b member)).symm⟩
  refine ⟨fun c ts found => ?_, fun c ts found => kept c ts (finds.kept c ts found), ?_⟩
  · by_cases same : c = span
    · subst same
      rw [List.lookup_cons, beq_self_eq_true] at found
      obtain ⟨known, texts⟩ := stands finds.found
      exact ⟨h, here, known, (Option.some.inj found).symm.trans (whole.trans texts)⟩
    · rw [List.lookup_cons, beq_false_of_ne same] at found
      obtain ⟨h', here', known, rfl⟩ := finds.closed c ts found
      obtain ⟨known, texts⟩ := stands known
      exact ⟨h', here', known, texts⟩
  · intro v member
    rcases finds.visited v member with member | known
    · rcases List.mem_cons.mp member with rfl | member
      · exact .inr (by rw [List.lookup_cons, beq_self_eq_true]; rfl)
      · exact .inl member
    · exact .inr (kept.isSome known)

/-- With more steps than a class extends others, the walk from there finds what it passes on. -/
theorem pass_finds (acyclic : ∀ c, ¬ TransGen (Extends hs) c c) {n : Nat}
    (steps : span ∈ hs.map (·.span) → height hs span < n) (closed : Closed hs s.known)
    (leads : s.Leads hs span) :
    ∃ texts s', pass hs n span s = (texts, s') ∧ Finds hs [span] s [texts] s' := by
  induction n generalizing span s with
  | zero =>
    have outside : span ∉ hs.map (·.span) := fun inside => Nat.not_lt_zero _ (steps inside)
    refine ⟨[], s, rfl, .refl closed, ?_, ?_⟩
    · rw [List.map_singleton, passed, Option.not_isSome_iff_eq_none.mp (mt find?_isSome_iff.mp outside)]
    · intro b member inside
      exact absurd (List.mem_singleton.mp member ▸ inside) outside
  | succ n ih =>
    cases here : hs.find? (·.span = span) with
    | none =>
      refine ⟨[], s, by rw [pass, here]; rfl, .refl closed, ?_, ?_⟩
      · rw [List.map_singleton, passed, here]
      · intro b member inside
        rw [← find?_isSome_iff, List.mem_singleton.mp member, here] at inside
        cases inside
    | some h =>
      have inside : span ∈ hs.map (·.span) := find?_isSome_iff.mp (by rw [here]; rfl)
      have value (known : List (Span × List String)) :
          [span].map (passed hs known) = [(known.lookup span).getD [] ++ h.own] := by
        rw [List.map_singleton, passed, here]
      by_cases known : (s.known.lookup span).isSome
      · refine ⟨_, s, pass_known here known n, .refl closed, (value _).symm, fun b member _ => ?_⟩
        rwa [List.mem_singleton.mp member]
      · have fresh : span ∉ s.visiting := fun member =>
          (leads span member).elim known fun cycle => acyclic span (cycle inside)
        have extend (b : Span) (member : b ∈ h.bases) (there : b ∈ hs.map (·.span)) :
            Extends hs span b := ⟨h, here, member, there⟩
        obtain ⟨texts, s', run, finds⟩ : ∃ texts s',
            h.bases.mapM (pass hs n) { s with visiting := span :: s.visiting } = (texts, s') ∧
              Finds hs h.bases { s with visiting := span :: s.visiting } texts s' := finds_all
          (fun b member s closed leads => ih (fun there =>
            Nat.lt_of_lt_of_le (height_lt acyclic (extend b member there))
              (Nat.le_of_lt_succ (steps inside))) closed leads)
          closed (fun b member v visited => by
            rcases List.mem_cons.mp visited with rfl | visited
            · exact .inr fun there => .single (extend b member there)
            · exact (leads v visited).imp_right fun way there =>
                .tail (way inside) (extend b member there))
        refine ⟨_, _, pass_new here known fresh run, finds.note here, ?_, ?_⟩
        · rw [value, List.lookup_cons, beq_self_eq_true]
          rfl
        · intro b member _
          rw [List.mem_singleton.mp member, List.lookup_cons, beq_self_eq_true]
          rfl

theorem inheritance_closed (acyclic : ∀ c, ¬ TransGen (Extends hs) c c) :
    Closed hs (inheritance hs) ∧
      ∀ span ∈ hs.map (·.span), ((inheritance hs).lookup span).isSome := by
  have walk (rest : List Heir) (known : List (Span × List String)) (closed : Closed hs known) :
      let known' := rest.foldl (fun known h => (pass hs (hs.length + 1) h.span ⟨known, []⟩).2.known)
        known
      Closed hs known' ∧ Kept known known' ∧
        ∀ h ∈ rest, h.span ∈ hs.map (·.span) → (known'.lookup h.span).isSome := by
    induction rest generalizing known with
    | nil => exact ⟨closed, fun _ _ found => found, fun h member => absurd member List.not_mem_nil⟩
    | cons h rest ih =>
      obtain ⟨_, s', run, finds⟩ := pass_finds (s := ⟨known, []⟩) acyclic
        (fun _ => Nat.lt_succ_of_le (height_le hs h.span)) closed nofun
      obtain ⟨closed', kept, found⟩ := ih s'.known finds.closed
      rw [List.foldl_cons, run]
      refine ⟨closed', fun span texts here => kept _ _ (finds.kept _ _ here), fun g member inside => ?_⟩
      rcases List.mem_cons.mp member with rfl | member
      · exact kept.isSome (finds.found _ (List.mem_singleton.mpr rfl) inside)
      · exact found g member inside
  obtain ⟨closed, -, found⟩ := walk hs [] nofun
  refine ⟨closed, fun span inside => ?_⟩
  obtain ⟨h, member, rfl⟩ := List.mem_map.mp inside
  exact found h member inside

theorem closed_unique (acyclic : ∀ c, ¬ TransGen (Extends hs) c c) (closed : Closed hs known)
    (closed' : Closed hs known') (inside : span ∈ hs.map (·.span))
    (here : (known.lookup span).isSome) (there : (known'.lookup span).isSome) :
    known.lookup span = known'.lookup span := by
  induction m : height hs span using Nat.strongRecOn generalizing span with
  | ind m ih =>
    obtain ⟨texts, found⟩ := Option.isSome_iff_exists.mp here
    obtain ⟨texts', found'⟩ := Option.isSome_iff_exists.mp there
    obtain ⟨h, heir, bases, rfl⟩ := closed span texts found
    obtain ⟨h', heir', bases', rfl⟩ := closed' span texts' found'
    obtain rfl := Option.some.inj (heir.symm.trans heir')
    rw [found, found']
    refine congrArg some (List.flatMap_congr fun b member => ?_)
    unfold passed
    cases known : hs.find? (·.span = b) with
    | none => rfl
    | some base =>
      have inside : b ∈ hs.map (·.span) := find?_isSome_iff.mp (by rw [known]; rfl)
      rw [ih _ (m ▸ height_lt acyclic ⟨h, heir, member, inside⟩) inside (bases b member inside)
        (bases' b member inside) rfl]

theorem inheritance_perm {hs' : List Heir} (acyclic : ∀ c, ¬ TransGen (Extends hs) c c)
    (once : (hs.map (·.span)).Nodup) (perm : hs.Perm hs') (inside : span ∈ hs.map (·.span)) :
    (inheritance hs).lookup span = (inheritance hs').lookup span := by
  have heirs (c : Span) : hs'.find? (·.span = c) = hs.find? (·.span = c) := by
    refine (List.find?_eq_find?_of_perm perm ?_).symm
    rintro h ⟨here, same⟩ g ⟨there, same'⟩
    have same : h.span = g.span := (of_decide_eq_true same).trans (of_decide_eq_true same').symm
    exact List.inj_on_of_nodup_map once here there same
  have spans (c : Span) : c ∈ hs'.map (·.span) ↔ c ∈ hs.map (·.span) := (perm.map _).symm.mem_iff
  have extend : Extends hs' = Extends hs := by
    funext a b
    simp only [Extends, heirs, spans]
  have passed_eq (known : List (Span × List String)) : passed hs' known = passed hs known := by
    funext c
    simp only [passed, heirs]
  obtain ⟨closed, found⟩ := inheritance_closed acyclic
  obtain ⟨closed', found'⟩ := inheritance_closed (extend ▸ acyclic)
  refine closed_unique acyclic closed ?_ inside (found span inside) (found' span ((spans span).mpr inside))
  simpa only [Closed, heirs, spans, passed_eq] using closed'

theorem find?_heir {h : Heir} (once : (hs.map (·.span)).Nodup) (member : h ∈ hs) :
    hs.find? (·.span = h.span) = some h := by
  obtain ⟨g, found⟩ := Option.isSome_iff_exists.mp
    (find?_isSome_iff.mpr (List.mem_map_of_mem member))
  have same : g.span = h.span := by simpa using List.find?_some found
  rw [found, List.inj_on_of_nodup_map once (List.mem_of_find?_eq_some found) member same]

end

/-! ### Files -/

/-- What a class passes on of its own: the texts of its uses that are not isolated. -/
def ownTexts (defs : List Definition) (us : List AttributeUse) : List String :=
  ((useEffects defs us).toOption.getD []).flatMap Effects.passedOn

def localBases (info : Info) (bases : List TypeExpr) : List Span :=
  bases.filterMap fun b => (info.localBase? b).map (·.1)

/-- A class without its name and members. -/
structure ClassHead where
  info : DeclInfo
  bases : List TypeExpr

end Attribute

open Attribute in
mutual

/-- The classes that a declaration holds, or is. -/
def Decl.classHeads : Decl → List ClassHead
  | .cls info _ bases _ => [⟨info, bases⟩]
  | .scope _ _ ds => Decl.classHeadsIn ds
  | _ => []

def Decl.classHeadsIn : List Decl → List ClassHead
  | [] => []
  | d :: ds => d.classHeads ++ Decl.classHeadsIn ds

end

def File.classHeads (file : File) : List Attribute.ClassHead := Decl.classHeadsIn file.decls

namespace Attribute

open Relation

variable {defs : List Definition}

/-- A class as inheritance sees it. -/
def ClassHead.heir (info : Info) (defs : List Definition) (c : ClassHead) : Heir :=
  ⟨c.info.span, localBases info c.bases, ownTexts defs c.info.attrs⟩

mutual

theorem heirs_eq (info : Info) (defs : List Definition) : (d : Decl) →
    heirs info defs d = d.classHeads.map (ClassHead.heir info defs)
  | .cls _ _ _ _ => rfl
  | .scope _ _ ds => heirsOf_eq info defs ds
  | .item _ | .includes _ _ _ _ | .assume _ _ _ | .abstraction _ _ _ _ | .refurbish _ _ _
  | .attributeDef _ _ _ _ => rfl

theorem heirsOf_eq (info : Info) (defs : List Definition) : (ds : List Decl) →
    heirsOf info defs ds = (Decl.classHeadsIn ds).map (ClassHead.heir info defs)
  | [] => rfl
  | d :: ds => by
    rw [heirsOf, Decl.classHeadsIn, List.map_append, heirs_eq info defs d, heirsOf_eq info defs ds]

end

/-- A class with what its attributes generate. -/
def ClassHead.generated (defs : List Definition) (c : ClassHead) : ClassHead :=
  { c with info := generate c.info ((useEffects defs c.info.attrs).toOption.getD []) }

/-- A class with what it inherits. -/
def ClassHead.inheriting (known : List (Span × List String)) (c : ClassHead) : ClassHead :=
  { c with info := { c.info with generated :=
    { c.info.generated with inherited := (known.lookup c.info.span).getD [] } } }

theorem expandInfo_generates {info info' : DeclInfo} (run : expandInfo defs info = .ok info') :
    info' = generate info ((useEffects defs info.attrs).toOption.getD []) := by
  obtain ⟨fxs, effects, same⟩ := except_bind_ok run
  rw [effects]
  exact (Except.ok.inj same).symm

mutual

theorem expandDecl_classHeads : (d : Decl) → {d' : Decl} → expandDecl defs d = .ok d' →
    d'.classHeads = d.classHeads.map (ClassHead.generated defs)
  | .item i, d', run => by
    obtain ⟨i', -, same⟩ := except_bind_ok run
    cases same
    rfl
  | .scope info name ds, d', run => by
    rw [expandDecl] at run
    obtain ⟨info', -, run⟩ := except_bind_ok run
    obtain ⟨ds', inner, same⟩ := except_bind_ok run
    cases same
    exact expandDecls_classHeads ds inner
  | .cls info name bases items, d', run => by
    rw [expandDecl] at run
    obtain ⟨info', own, run⟩ := except_bind_ok run
    obtain ⟨items', -, same⟩ := except_bind_ok run
    cases same
    rw [Decl.classHeads, expandInfo_generates own]
    rfl
  | .attributeDef _ _ _ _, d', run => by
    cases run
    rfl
  | .includes _ _ _ _, d', run | .assume _ _ _, d', run | .abstraction _ _ _ _, d', run
  | .refurbish _ _ _, d', run => by
    obtain ⟨info', -, same⟩ := except_bind_ok run
    cases same
    rfl

theorem expandDecls_classHeads : (ds : List Decl) → {ds' : List Decl} →
    expandDecls defs ds = .ok ds' →
    Decl.classHeadsIn ds' = (Decl.classHeadsIn ds).map (ClassHead.generated defs)
  | [], _, run => by
    cases run
    rfl
  | d :: ds, ds', run => by
    rw [expandDecls] at run
    obtain ⟨d', here, run⟩ := except_bind_ok run
    obtain ⟨rest, later, same⟩ := except_bind_ok run
    cases same
    rw [Decl.classHeadsIn, Decl.classHeadsIn, List.map_append, expandDecl_classHeads d here,
      expandDecls_classHeads ds later]

end

mutual

theorem inheritDecl_classHeads (known : List (Span × List String)) : (d : Decl) →
    (inheritDecl known d).classHeads = d.classHeads.map (ClassHead.inheriting known)
  | .cls _ _ _ _ => rfl
  | .scope _ _ ds => inheritDecls_classHeads known ds
  | .item _ | .includes _ _ _ _ | .assume _ _ _ | .abstraction _ _ _ _ | .refurbish _ _ _
  | .attributeDef _ _ _ _ => rfl

theorem inheritDecls_classHeads (known : List (Span × List String)) : (ds : List Decl) →
    Decl.classHeadsIn (inheritDecls known ds) =
      (Decl.classHeadsIn ds).map (ClassHead.inheriting known)
  | [] => rfl
  | d :: ds => by
    rw [inheritDecls, Decl.classHeadsIn, Decl.classHeadsIn, List.map_append,
      inheritDecl_classHeads known d, inheritDecls_classHeads known ds]

end

end Attribute

open Attribute Relation

theorem File.expand_classHeads {file file' : File} {info : Info}
    (run : file.expand (some info) = .ok file') :
    let defs := definitionsOf file.decls
    let known := inheritance (file.classHeads.map (ClassHead.heir info defs))
    file'.classHeads = file.classHeads.map fun c => (c.generated defs).inheriting known := by
  intro defs known
  obtain ⟨ds, expanded, same⟩ := except_bind_ok run
  cases same
  rw [File.classHeads]
  dsimp only
  rw [inheritDecls_classHeads, expandDecls_classHeads _ expanded, List.map_map, heirsOf_eq]
  rfl

mutual

theorem Decl.classHeads_spans (π : Path) : (d : Decl) →
    d.classHeads.map (·.info.span) = (d.classesAt π).map (·.1)
  | .cls _ _ _ _ => rfl
  | .scope _ name ds => Decl.classHeadsIn_spans (name :: π) ds
  | .item _ | .includes _ _ _ _ | .assume _ _ _ | .abstraction _ _ _ _ | .refurbish _ _ _
  | .attributeDef _ _ _ _ => rfl

theorem Decl.classHeadsIn_spans (π : Path) : (ds : List Decl) →
    (Decl.classHeadsIn ds).map (·.info.span) = (Decl.classesAtOf π ds).map (·.1)
  | [] => rfl
  | d :: ds => by
    rw [Decl.classHeadsIn, Decl.classesAtOf, List.map_append, List.map_append,
      Decl.classHeads_spans π d, Decl.classHeadsIn_spans π ds]

end

theorem File.classHeads_once {table : Table} {name src : String} {file : File}
    (read : File.read table name src = .ok file) :
    (file.classHeads.map (·.info.span)).Nodup := by
  have starts := File.chart_once read
  rw [File.classHeads, Decl.classHeadsIn_spans []]
  refine List.Nodup.of_map (fun span => span.start.offset) ?_
  rw [List.map_map]
  exact starts

/-- The class `a` extends the class `b` of the file. -/
def File.ExtendsAt (file : File) (info : Info) (a b : Span) : Prop :=
  ∃ c ∈ file.classHeads, c.info.span = a ∧ b ∈ localBases info c.bases ∧
    b ∈ file.classHeads.map (·.info.span)

/-- What the class at a span passes on: what it inherits, then the texts of its own uses. -/
def File.passesOn (file : File) (defs : List Definition) (span : Span) : List String :=
  match file.classHeads.find? (·.info.span = span) with
  | some c => c.info.generated.inherited ++ ownTexts defs c.info.attrs
  | none => []

theorem File.passesOn_eq {file file' : File} {info : Info} {defs : List Definition}
    {known : List (Span × List String)}
    (whole : file'.classHeads = file.classHeads.map fun c => (c.generated defs).inheriting known)
    (span : Span) :
    file'.passesOn defs span = passed (file.classHeads.map (ClassHead.heir info defs)) known span := by
  rw [File.passesOn, passed, whole, List.find?_map, List.find?_map]
  have left : ((fun c : ClassHead => decide (c.info.span = span)) ∘
      fun c : ClassHead => (c.generated defs).inheriting known) =
      fun c => decide (c.info.span = span) := rfl
  have right : ((fun h : Heir => decide (h.span = span)) ∘ ClassHead.heir info defs) =
      fun c => decide (c.info.span = span) := rfl
  rw [left, right]
  cases found : file.classHeads.find? (·.info.span = span) with
  | none => rfl
  | some c =>
    obtain rfl : c.info.span = span := by simpa using List.find?_some found
    rfl

/-- Where no class extends itself, a class of an expanded file inherits what its local bases pass
on, one base after the other. Other orders of the classes give the same. -/
theorem File.expand_inherits {table : Table} {name src : String} {file file' : File} {info : Info}
    (read : File.read table name src = .ok file)
    (acyclic : ∀ c, ¬ TransGen (file.ExtendsAt info) c c)
    (run : file.expand (some info) = .ok file') :
    let defs := definitionsOf file.decls
    (file'.classHeads.map fun c => (c.info.span, c.info.attrs, c.bases)) =
        (file.classHeads.map fun c => (c.info.span, c.info.attrs, c.bases)) ∧
      (∀ c ∈ file'.classHeads,
        c.info.generated.inherited = (localBases info c.bases).flatMap (file'.passesOn defs)) ∧
      ∀ file₂ file₂' : File, file₂.classHeads.Perm file.classHeads →
        definitionsOf file₂.decls = defs → file₂.expand (some info) = .ok file₂' →
        file₂'.classHeads.Perm file'.classHeads := by
  intro defs
  have whole := File.expand_classHeads run
  let hs := file.classHeads.map (ClassHead.heir info defs)
  have spans : hs.map (·.span) = file.classHeads.map (·.info.span) := List.map_map
  have once : (hs.map (·.span)).Nodup := spans ▸ File.classHeads_once read
  have acyclic (c : Span) : ¬ TransGen (Attribute.Extends hs) c c := fun cycle => by
    refine acyclic c (Relation.TransGen.mono (fun a b extend => ?_) c c cycle)
    obtain ⟨h, found, base, inside⟩ := extend
    obtain ⟨c, member, rfl⟩ := List.mem_map.mp (List.mem_of_find?_eq_some found)
    have same : (c.heir info defs).span = a := by simpa using List.find?_some found
    exact ⟨c, member, same, base, spans ▸ inside⟩
  refine ⟨?_, ?_, ?_⟩
  · rw [whole, List.map_map]
    rfl
  · intro c member
    rw [whole] at member
    obtain ⟨c, old, rfl⟩ := List.mem_map.mp member
    have heir : c.heir info defs ∈ hs := List.mem_map_of_mem old
    obtain ⟨closed, found⟩ := inheritance_closed acyclic
    obtain ⟨texts, known⟩ := Option.isSome_iff_exists.mp (found _ (List.mem_map_of_mem heir))
    obtain ⟨h, here, -, rfl⟩ := closed _ _ known
    obtain rfl := Option.some.inj (here.symm.trans (find?_heir once heir))
    calc ((inheritance hs).lookup c.info.span).getD []
        = (localBases info c.bases).flatMap (passed hs (inheritance hs)) := by
          exact congrArg (·.getD []) known
      _ = (localBases info c.bases).flatMap (file'.passesOn defs) :=
        List.flatMap_congr fun b _ => (File.passesOn_eq whole b).symm
  · intro file₂ file₂' perm same run₂
    rw [whole, File.expand_classHeads run₂, same]
    have heirs : hs.Perm (file₂.classHeads.map (ClassHead.heir info defs)) := (perm.map _).symm
    refine (perm.map _).trans (List.Perm.of_eq (List.map_congr_left fun c member => ?_))
    have inside : c.info.span ∈ hs.map (·.span) := spans ▸ List.mem_map_of_mem member
    have texts := inheritance_perm acyclic once heirs inside
    have span : (c.generated defs).info.span = c.info.span := rfl
    rw [ClassHead.inheriting, ClassHead.inheriting, span, texts]

/-- Classes that stand in front of their bases, one of which is passed on twice. -/
def heirsText : String :=
  "class C extends B, A { }\n@DeclareAppend(\"b\") class B extends A { }\n@DeclareAppend(\"a\") class A { }\n"

/-- Each class starts in front of its bases. -/
def basesBehind (file : File) (info : Info) : Bool :=
  file.classHeads.all fun c =>
    (localBases info c.bases).all fun b => decide (c.info.span.start.offset < b.start.offset)

theorem basesBehind_acyclic {file : File} {info : Info} (behind : basesBehind file info = true)
    (c : Span) : ¬ TransGen (file.ExtendsAt info) c c := by
  have later (a b : Span) (extend : file.ExtendsAt info a b) : a.start.offset < b.start.offset := by
    obtain ⟨c, member, rfl, base, -⟩ := extend
    exact of_decide_eq_true (List.all_eq_true.mp (List.all_eq_true.mp behind c member) b base)
  intro cycle
  have away {a b : Span} (way : TransGen (file.ExtendsAt info) a b) :
      a.start.offset < b.start.offset := by
    induction way with
    | single extend => exact later _ _ extend
    | tail _ extend ih => exact Int.lt_trans ih (later _ _ extend)
  exact Int.lt_irrefl _ (away cycle)

theorem File.expand_inherits_of_heirs : ∃ file file' info,
    File.read Table.default "main.tasty" heirsText = .ok file ∧
      (∀ c, ¬ TransGen (file.ExtendsAt info) c c) ∧ file.expand (some info) = .ok file' ∧
      file'.classHeads.map (·.info.generated.inherited) = [["a", "b", "a"], ["a"], []] ∧
      ∀ c ∈ file'.classHeads, c.info.generated.inherited =
        (localBases info c.bases).flatMap (file'.passesOn (definitionsOf file.decls)) := by
  have found : (resolved? Table.default "main.tasty" heirsText).any (fun r =>
      basesBehind r.1 r.2 && (r.1.expand (some r.2)).toOption.any fun file' =>
        file'.classHeads.map (·.info.generated.inherited) == [["a", "b", "a"], ["a"], []]) = true := by
    rw [resolved?, heirsText, File.read_ofList]
    decide +kernel
  obtain ⟨⟨file, info⟩, steps, checks⟩ := (Option.any_eq_true _ _).mp found
  obtain ⟨behind, done⟩ := Bool.and_eq_true_iff.mp checks
  obtain ⟨file', run, texts⟩ := (Option.any_eq_true _ _).mp done
  obtain ⟨read, -⟩ := resolved?_some steps
  have acyclic := basesBehind_acyclic behind
  have run := toOption_eq_some run
  obtain ⟨-, inherits, -⟩ := File.expand_inherits read acyclic run
  exact ⟨file, file', info, read, acyclic, run, eq_of_beq texts, inherits⟩

end TastyLang
