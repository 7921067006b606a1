import Mathlib
import TastyLang.Proofs.Evaluation
import TastyLang.Proofs.Reading.Nesting

/-!
# Where spans end

A phrase that was read takes a piece of the text: its tokens with gaps in between (`Token.Run`). The
span of the phrase starts where that piece starts, and it ends where the piece ends unless the
phrase is a member access, whose span ends in front of the name. The line and the column of the end
are those of its offset if the last token is a captured block or stands on one line, and only then
(`Phrase.ReadFrom.spans_stand`).
-/

namespace TastyLang

namespace Token

/-- `text`, which stands behind `before`, is these tokens with gaps in between. -/
inductive Run : List Char → List Char → List Token → Prop where
  | last {before : List Char} {t : Token} : t.pos.Follows before → Run before t.extent [t]
  | more {before gap rest : List Char} {t u : Token} {ts : List Token} : t.pos.Follows before →
      IsGap (u.kind == .eof) gap → Run (before ++ t.extent ++ gap) rest (u :: ts) →
      Run before (t.extent ++ gap ++ rest) (t :: u :: ts)

section

variable {before text cs : List Char} {t : Token} {ts us : List Token}

theorem Cut.front (h : Cut before cs ts) (front : t :: us <+: ts) :
    ∃ gap text rest, cs = gap ++ text ++ rest ∧ IsGap (t.kind == .eof) gap ∧
      Run (before ++ gap) text (t :: us) := by
  induction h generalizing t us with
  | stop gap place =>
    obtain ⟨rfl, none⟩ := List.cons_prefix_cons.mp front
    obtain rfl := List.prefix_nil.mp none
    exact ⟨_, [], [], by simp, gap, .last (t := ⟨.eof, "", _⟩) place⟩
  | @token before gap rest u ts isGap kind _ place _ ih =>
    obtain ⟨rfl, tail⟩ := List.cons_prefix_cons.mp front
    have isGap' : IsGap (t.kind == .eof) gap := by rwa [beq_eq_false_iff_ne.mpr kind]
    cases us with
    | nil => exact ⟨gap, t.extent, rest, rfl, isGap', .last place⟩
    | cons u us =>
      obtain ⟨gap', text, rest', rfl, between, run⟩ := ih tail
      refine ⟨gap, t.extent ++ gap' ++ text, rest', ?_, isGap', .more place between run⟩
      simp only [List.append_assoc]

theorem Cut.drop (h : Cut before cs (ts ++ us)) (some : us ≠ []) :
    ∃ a b, cs = a ++ b ∧ Cut (before ++ a) b us := by
  induction ts generalizing before cs with
  | nil => exact ⟨[], cs, rfl, by simpa using h⟩
  | cons t ts ih =>
    rw [List.cons_append] at h
    generalize same : t :: (ts ++ us) = all at h
    cases h with
    | stop _ _ =>
      obtain ⟨-, none⟩ := List.cons.inj same
      exact absurd (List.append_eq_nil_iff.mp none).2 some
    | @token _ gap rest u _ _ _ _ _ tail =>
      obtain ⟨rfl, rfl⟩ := List.cons.inj same
      obtain ⟨a, b, rfl, cut⟩ := ih tail
      refine ⟨gap ++ t.extent ++ a, b, (List.append_assoc ..).symm, ?_⟩
      simpa only [List.append_assoc] using cut

theorem Cut.run (h : Cut before cs ts) (inside : us <:+: ts) (some : us ≠ []) :
    ∃ front text back, before ++ cs = front ++ text ++ back ∧ Run front text us := by
  obtain ⟨a, b, rfl⟩ := inside
  obtain ⟨u, us, rfl⟩ := List.exists_cons_of_ne_nil some
  rw [List.append_assoc] at h
  obtain ⟨c, d, rfl, cut⟩ := h.drop (by simp)
  obtain ⟨gap, text, rest, rfl, -, run⟩ := cut.front (List.prefix_append _ b)
  exact ⟨before ++ c ++ gap, text, rest, by simp only [List.append_assoc], run⟩

theorem Run.follows (h : Run before text (t :: ts)) : t.pos.Follows before := by
  cases h with
  | last place => exact place
  | more place _ _ => exact place

theorem Run.ends (h : Run before text ts) (last : ts.getLast? = some t) :
    ∃ front, text = front ++ t.extent ∧ t.pos.Follows (before ++ front) := by
  induction h with
  | last place =>
    obtain rfl := Option.some.inj last
    exact ⟨[], rfl, by simpa using place⟩
  | @more before gap rest u v ts _ _ _ ih =>
    rw [List.getLast?_cons_cons] at last
    obtain ⟨front, rfl, place⟩ := ih last
    refine ⟨u.extent ++ gap ++ front, (List.append_assoc ..).symm, ?_⟩
    simpa only [List.append_assoc] using place

theorem Run.front (h : Run before text (ts ++ [t])) (some : ts ≠ []) :
    ∃ front gap, text = front ++ gap ++ t.extent ∧ IsGap (t.kind == .eof) gap ∧
      Run before front ts := by
  induction ts generalizing before text with
  | nil => exact absurd rfl some
  | cons u ts ih =>
    cases ts with
    | nil =>
      cases h with
      | more place gap rest =>
        cases rest
        exact ⟨_, _, rfl, gap, .last place⟩
    | cons v ts =>
      cases h with
      | more place gap rest =>
        obtain ⟨front, gap', rfl, last, run⟩ := ih rest (List.cons_ne_nil _ _)
        refine ⟨_, gap', ?_, last, .more place gap run⟩
        simp only [List.append_assoc]

theorem Run.stop_offset (h : Run before text ts) (last : ts.getLast? = some t) :
    t.stop.offset = Text.size (before ++ text) := by
  obtain ⟨front, rfl, place⟩ := h.ends last
  rw [Token.stop_offset, place.offset, ← List.append_assoc, Text.size_append _ t.extent]
  rfl

theorem Run.stop_follows_iff (h : Run before text ts) (last : ts.getLast? = some t) :
    t.stop.Follows (before ++ text) ↔ t.kind = .raw ∨ '\n' ∉ t.literal.toList := by
  obtain ⟨front, rfl, place⟩ := h.ends last
  rw [← List.append_assoc]
  exact Token.stop_follows_iff place

theorem Cut.extent_ne_nil (h : Cut before cs ts) (member : t ∈ ts) (kind : t.kind ≠ .eof) :
    t.extent ≠ [] := by
  induction h with
  | stop =>
    obtain rfl := List.mem_singleton.mp member
    exact absurd rfl kind
  | token _ _ some _ _ ih =>
    rcases List.mem_cons.mp member with rfl | member
    · exact some
    · exact ih member

end

end Token

/-! ### Pieces of a phrase -/

section

open Piece

variable {fits good : Phrase → List Token → Prop}

mutual

theorem Phrase.Built.strengthen {p : Phrase} {ts : List Token} (h : p.Built fits ts)
    (into : ∀ q us, us <:+: ts → q.Built fits us → good q us) : p.Built good ts :=
  match h with
  | .mk made filled _ =>
    .mk made (Piece.Filled.strengthen filled into) (into p ts List.infix_rfl h)

theorem Piece.Filled.strengthen {w : List Piece} {ts : List Token} (h : Filled fits w ts)
    (into : ∀ q us, us <:+: ts → q.Built fits us → good q us) : Filled good w ts :=
  match h with
  | .nil => .nil
  | .sign rest => .sign (Piece.Filled.strengthen rest fun q us inside =>
      into q us (inside.trans (List.suffix_cons _ _).isInfix))
  | .word rest => .word (Piece.Filled.strengthen rest fun q us inside =>
      into q us (inside.trans (List.suffix_cons _ _).isInfix))
  | .part built rest => .part
      (Phrase.Built.strengthen built fun q us inside =>
        into q us (inside.trans (List.prefix_append _ _).isInfix))
      (Piece.Filled.strengthen rest fun q us inside =>
        into q us (inside.trans (List.suffix_append _ _).isInfix))

end

end

namespace Phrase

/-- `x.name`, `x->name` or `x::name`. -/
def isMember : Phrase → Bool
  | node (.expr (.member _ _ _ _)) => true
  | _ => false

/-- What the span of a phrase says about the piece `text` of a text that the phrase takes with its
tokens; `before` is what stands in front of it. -/
structure Stands (before text : List Char) (p : Phrase) (ts : List Token) : Prop where
  run : Token.Run before text ts
  start : p.span.start.Follows before
  stop : p.span.stop.offset = Text.size (before ++ text) ↔ p.isMember = false
  place : ∀ last, ts.getLast? = some last → (p.span.stop.Follows (before ++ text) ↔
    p.isMember = false ∧ (last.kind = .raw ∨ '\n' ∉ last.literal.toList))
  /-- The end of a member access is in front of its name. -/
  member : p.isMember = true → ∃ front name shown gap, ts = front ++ [name] ∧
    text = shown ++ gap ++ name.extent ∧ Token.IsGap false gap ∧ Token.Run before shown front ∧
    p.span.stop.offset = Text.size (before ++ shown)

/-- The phrase takes some piece of the text. -/
def StandsIn (src : List Char) (p : Phrase) (ts : List Token) : Prop :=
  ∃ before text after, src = before ++ text ++ after ∧ p.Stands before text ts

variable {p q : Phrase} {before text : List Char} {ts : List Token}

theorem covered_eq (plain : p.isMember = false) : p.covered ts = ts := by
  unfold covered
  split
  · cases plain
  · rfl

theorem covered_member (member : p.isMember = true) : p.covered ts = ts.dropLast := by
  unfold isMember at member
  split at member
  · rfl
  · cases member

theorem Built.stands_plain (plain : p.isMember = false) (h : p.Built Marked ts)
    (run : Token.Run before text ts) : p.Stands before text ts := by
  have covers : p.span.Covers ts := by simpa only [Marked, covered_eq plain] using h.marked
  obtain ⟨first, head, start⟩ := Option.map_eq_some_iff.mp covers.start
  obtain ⟨last, tail, stop⟩ := Option.map_eq_some_iff.mp covers.stop
  obtain ⟨ts, rfl⟩ := List.head?_eq_some_iff.mp head
  refine ⟨run, start ▸ run.follows, ?_, fun last' tail' => ?_, fun member => ?_⟩
  · exact iff_of_true (stop ▸ run.stop_offset tail) plain
  · obtain rfl := Option.some.inj (tail.symm.trans tail')
    rw [← stop, run.stop_follows_iff tail]
    exact (and_iff_right plain).symm
  · cases plain.symm.trans member

theorem Built.member_tokens {fits : Phrase → List Token → Prop} (member : p.isMember = true)
    (h : p.Built fits ts) : ∃ front name, ts = front ++ [name] ∧ name.kind ≠ .eof := by
  obtain ⟨made, filled, -⟩ := h
  cases made with
  | node made =>
    cases made with
    | expr made =>
      cases made with
      | member kind =>
        cases filled with
        | part built rest =>
          obtain ⟨t, us, rfl, -, rest⟩ := rest.sign_inv
          obtain ⟨u, vs, rfl, same, -, rest⟩ := rest.word_inv
          cases rest
          refine ⟨_ ++ [t], u, (List.append_assoc _ [t] [u]).symm, fun eof => ?_⟩
          rw [← same, eof] at kind
          rcases kind with kind | kind <;> cases kind
      | _ => cases member
    | _ => cases member
  | _ => cases member

theorem Built.stands_member (member : p.isMember = true) (h : p.Built Marked ts)
    (run : Token.Run before text ts) (some : ∀ t ∈ ts, t.kind ≠ .eof → t.extent ≠ []) :
    p.Stands before text ts := by
  obtain ⟨front, name, rfl, kind⟩ := h.member_tokens member
  have covers : p.span.Covers front := by
    have marked := h.marked
    rwa [Marked, covered_member member, List.dropLast_concat] at marked
  obtain ⟨first, head, start⟩ := Option.map_eq_some_iff.mp covers.start
  obtain ⟨last, tail, stop⟩ := Option.map_eq_some_iff.mp covers.stop
  obtain ⟨rest, rfl⟩ := List.head?_eq_some_iff.mp head
  obtain ⟨shown, gap, rfl, isGap, run'⟩ := run.front (List.cons_ne_nil _ _)
  rw [beq_eq_false_iff_ne.mpr kind] at isGap
  have stop' : p.span.stop.offset = Text.size (before ++ shown) := stop ▸ run'.stop_offset tail
  -- the name takes some text
  have taken := Text.size_pos (some name (by simp) kind)
  have short : p.span.stop.offset ≠ Text.size (before ++ (shown ++ gap ++ name.extent)) := by
    rw [stop']
    simp only [Text.size_append]
    omega
  refine ⟨run, start ▸ run'.follows, ?_, fun _ _ => ?_, fun _ => ?_⟩
  · exact iff_of_false short (by rw [member]; rintro ⟨⟩)
  · exact iff_of_false (fun follows => short follows.offset) (by rw [member]; exact fun no => absurd no.1 (by decide))
  · exact ⟨_, name, shown, gap, rfl, rfl, isGap, run', stop'⟩

theorem Built.stands (h : p.Built Marked ts) (run : Token.Run before text ts)
    (some : ∀ t ∈ ts, t.kind ≠ .eof → t.extent ≠ []) : p.Stands before text ts := by
  cases member : p.isMember with
  | true => exact h.stands_member member run some
  | false => exact h.stands_plain member run

theorem Built.standsIn {src : List Char} {all : List Token} (h : p.Built Marked ts)
    (cut : Token.Cut [] src all) (inside : ts <:+: all) : p.Built (StandsIn src) ts := by
  refine h.strengthen fun q us here built => ?_
  have inside := here.trans inside
  obtain ⟨⟨t, first, -⟩, -⟩ := built.ends
  obtain ⟨front, text, back, whole, run⟩ := cut.run inside (List.ne_nil_of_mem first)
  refine ⟨front, text, back, whole, built.stands run fun t member kind => ?_⟩
  exact cut.extent_ne_nil (inside.subset member) kind

/-! ### What was read -/

/-- The phrase was read from the text, as a file or as an expression. -/
inductive ReadFrom (table : Table) (src : String) : Phrase → Prop where
  | file {name : String} {f : File} : File.read table name src = .ok f →
      ReadFrom table src (.node (.file f))
  | expr {e : Expr} : Expr.read table src = .ok e → ReadFrom table src (.expr e)

theorem ReadFrom.built {table : Table} {src : String} (h : p.ReadFrom table src) :
    ∃ ts back, Token.Cut [] src.toList (ts ++ back) ∧ p.Built Marked ts := by
  cases h with
  | file read =>
    obtain ⟨ts, cut, built⟩ := File.read_built read
    exact ⟨ts, [], by rwa [List.append_nil], built⟩
  | expr read =>
    obtain ⟨ts, stop, -, cut, built⟩ := Expr.read_built read
    exact ⟨ts, _, cut, built⟩

/-- The phrase and all inside of it stand in the text with the tokens that they are made of; in
particular all nodes of the tree do. -/
theorem ReadFrom.spans_stand {table : Table} {src : String} (h : p.ReadFrom table src) :
    ∃ ts back, Token.Cut [] src.toList (ts ++ back) ∧ p.Built (StandsIn src.toList) ts ∧
      ∀ n ∈ p.nodes, ∃ us before text after, us <:+: ts ∧ (node n).Spelled us ∧
        src.toList = before ++ text ++ after ∧ (node n).Stands before text us := by
  obtain ⟨ts, back, cut, built⟩ := h.built
  have front := (List.prefix_append ts back).isInfix
  refine ⟨ts, back, cut, built.standsIn cut front, fun n below => ?_⟩
  obtain ⟨root, same⟩ : ∃ root, p = node root := by cases h <;> exact ⟨_, rfl⟩
  subst same
  rw [nodes_node] at below
  obtain ⟨us, inside, built⟩ := Node.built_nodes built below
  obtain ⟨before, text, after, whole, stands⟩ := (built.standsIn cut (inside.trans front)).marked
  exact ⟨us, before, text, after, inside, built.strengthen fun _ _ _ _ => trivial, whole, stands⟩

/-- Two member accesses, one of them inside of the arguments of a call. -/
theorem ReadFrom.spans_stand_of_calls :
    let src := "a.b(c->d)[0]"
    ∃ e, Expr.read .default src = .ok e ∧ e.nodes.length = 7 ∧
      ∃ ts back, Token.Cut [] src.toList (ts ++ back) ∧
        (Phrase.expr e).Built (StandsIn src.toList) ts ∧
        ∀ n ∈ (Phrase.expr e).nodes, ∃ us before text after, us <:+: ts ∧ (node n).Spelled us ∧
          src.toList = before ++ text ++ after ∧ (node n).Stands before text us := by
  intro src
  have computed : (Expr.read .default src).toOption.any (·.nodes.length == 7) = true := by
    rw [Expr.read, Reader.run_ofList]
    decide +kernel
  obtain ⟨e, found, length⟩ := (Option.any_eq_true _ _).mp computed
  have read := toOption_eq_some found
  exact ⟨e, read, beq_iff_eq.mp length, ReadFrom.spans_stand (.expr read)⟩

/-- The span of `a.b` leaves out `b`, and the end of a literal with an escaped line end is taken to be
on the line of its start. -/
theorem span_leaves_name_out :
    (∃ e ts, Expr.read .default "a.b" = .ok e ∧ (Phrase.expr e).Spelled ts ∧
      Token.Run [] "a.b".toList ts ∧ e.span.stop.offset = 2 ∧ Text.size "a.b".toList = 3) ∧
    ∃ e ts, Expr.read .default "\"x\\\ny\"" = .ok e ∧ (Phrase.expr e).Spelled ts ∧
      Token.Run [] "\"x\\\ny\"".toList ts ∧ e.span.stop = ⟨1, 7, 6⟩ ∧
      (⟨2, 3, 6⟩ : Pos).Follows "\"x\\\ny\"".toList := by
  let a : Token := ⟨.ident, "a", ⟨1, 1, 0⟩⟩
  let dot : Token := ⟨.op .dot, ".", ⟨1, 2, 1⟩⟩
  let b : Token := ⟨.ident, "b", ⟨1, 3, 2⟩⟩
  let x : Token := ⟨.string, "\"x\\\ny\"", ⟨1, 1, 0⟩⟩
  refine ⟨⟨.member ⟨⟨1, 1, 0⟩, ⟨1, 3, 2⟩⟩ (.ident ⟨⟨1, 1, 0⟩, ⟨1, 2, 1⟩⟩ "a") "b" .dot, [a, dot, b],
    by cbv, ?_, ?_, rfl, rfl⟩, .literal ⟨⟨1, 1, 0⟩, ⟨1, 7, 6⟩⟩ .string x.literal, [x], by cbv, ?_, ?_,
    rfl, ?_⟩
  · have object : (Phrase.expr (.ident ⟨⟨1, 1, 0⟩, ⟨1, 2, 1⟩⟩ "a")).Spelled [a] :=
      .mk (.node (.expr .ident)) (.word (t := a) .nil) trivial
    exact .mk (.node (.expr (.member (k := .ident) (.inl rfl))))
      (.part object (.sign (t := dot) (.word (t := b) .nil))) trivial
  · have first : a.extent = ['a'] := by decide
    have second : dot.extent = ['.'] := by decide
    have place : dot.pos.Follows ([] ++ a.extent ++ []) := by
      rw [first]
      exact Pos.afterAll_follows ['a']
    have place' : b.pos.Follows ([] ++ a.extent ++ [] ++ dot.extent ++ []) := by
      rw [first, second]
      exact Pos.afterAll_follows ['a', '.']
    have whole : "a.b".toList = a.extent ++ [] ++ (dot.extent ++ [] ++ b.extent) := by decide
    rw [whole]
    exact .more (Pos.afterAll_follows []) .nil (.more place .nil (.last place'))
  · exact .mk (.node (.expr (.literal (by decide)))) (.word (t := x) .nil) trivial
  · exact .last (t := x) (Pos.afterAll_follows [])
  · have text : "\"x\\\ny\"".toList = ['"', 'x', '\\', '\n', 'y', '"'] := by decide
    rw [text]
    exact Pos.afterAll_follows ['"', 'x', '\\', '\n', 'y', '"']

end Phrase

/-! ## Expressions have spans of their own

An expression is written with at least one token that belongs to none of its parts, so its span is
larger than theirs. No two expressions of a file that was read have the same span
(`File.read_apart`).
-/

open Piece

/-! ### Tokens between the parts -/

namespace Piece

/-- How many of some pieces are tokens. -/
def signs : List Piece → Nat
  | [] => 0
  | part _ :: w => signs w
  | sign _ :: w | word _ _ :: w => signs w + 1

@[simp]
theorem signs_append (v w : List Piece) : signs (v ++ w) = signs v + signs w := by
  induction v with
  | nil => simp [signs]
  | cons p v ih => cases p <;> simp [signs, ih] <;> omega

/-- Each part has all tokens for itself but those that stand between the parts. -/
theorem Filled.part_length {fits : Phrase → List Token → Prop} {w : List Piece} {ts : List Token}
    (h : Filled fits w ts) {p : Phrase} (member : p ∈ phrases w) :
    ∃ us, us <:+: ts ∧ p.Built fits us ∧ us.length + signs w ≤ ts.length := by
  induction w generalizing ts with
  | nil => cases member
  | cons q w ih =>
    cases h with
    | sign rest =>
      obtain ⟨us, inside, built, length⟩ := ih rest member
      refine ⟨us, inside.trans (List.suffix_cons _ _).isInfix, built, ?_⟩
      simp only [signs, List.length_cons]
      omega
    | word rest =>
      obtain ⟨us, inside, built, length⟩ := ih rest member
      refine ⟨us, inside.trans (List.suffix_cons _ _).isInfix, built, ?_⟩
      simp only [signs, List.length_cons]
      omega
    | @part p' _ us vs built rest =>
      have fewer : signs w ≤ vs.length := by
        clear ih member
        induction w generalizing vs with
        | nil => exact Nat.zero_le _
        | cons q w ih =>
          cases rest with
          | sign rest => simpa [signs] using ih rest
          | word rest => simpa [signs] using ih rest
          | part _ rest =>
            have := ih rest
            simp only [signs, List.length_append]
            omega
      rcases List.mem_cons.mp member with rfl | member
      · refine ⟨us, (List.prefix_append _ _).isInfix, built, ?_⟩
        simp only [signs, List.length_append]
        omega
      · obtain ⟨us', inside, built', length⟩ := ih rest member
        refine ⟨us', inside.trans (List.suffix_append _ _).isInfix, built', ?_⟩
        simp only [signs, List.length_append]
        omega

end Piece

theorem Expr.Made.signs_pos {e : Expr} {w : List Piece} (h : e.Made w) : 0 < signs w := by
  cases h <;> simp [signs, bracketed, op, key, name, expr, type]

/-! ### Tokens that take text -/

/-- Tokens that take some text each and stand one after the other. -/
structure Token.Solid (ts : List Token) : Prop where
  turns : Token.InTurn ts
  taken : ∀ t ∈ ts, t.pos.offset < t.stop.offset

namespace Token.Solid

variable {ts us : List Token}

theorem part (h : Solid ts) (inside : us <:+: ts) : Solid us :=
  ⟨h.turns.sublist inside.sublist, fun t member => h.taken t (inside.subset member)⟩

theorem eq_of_covers {s s' : Span} (h : Solid ts) (whole : s.Covers ts) (part : s'.Covers us)
    (inside : us <:+: ts) (sameStart : s'.start.offset = s.start.offset)
    (sameStop : s'.stop.offset = s.stop.offset) : us = ts := by
  obtain ⟨a, b, rfl⟩ := inside
  obtain ⟨⟨t, first, start⟩, u, last, stop⟩ := part.ends
  have turns := h.turns
  rw [Token.InTurn, List.pairwise_append, List.pairwise_append] at turns
  obtain ⟨⟨-, -, before⟩, -, behind⟩ := turns
  have none : a = [] := by
    refine List.eq_nil_iff_forall_not_mem.mpr fun x member => ?_
    have lower := whole.start_le h.turns x (by simp [member])
    have taken := h.taken x (by simp [member])
    have apart := before x member t first
    rw [start] at apart
    omega
  have none' : b = [] := by
    refine List.eq_nil_iff_forall_not_mem.mpr fun x member => ?_
    have upper := whole.le_stop h.turns x (by simp [member])
    have taken := h.taken x (by simp [member])
    have apart := behind u (by simp [last]) x member
    rw [stop] at apart
    omega
  simp [none, none']

end Token.Solid

/-! ### Expressions -/

namespace Node

variable {n m : Node} {ts : List Token} {e : Expr}

theorem parts_of_child (child : m ∈ (Node.expr e).children) : Phrase.node m ∈ e.parts := by
  obtain ⟨p, member, shown⟩ := List.mem_flatMap.mp child
  have member : p ∈ e.parts := member
  suffices same : p = .node m by rwa [same] at member
  have plain : ∀ q ∈ e.parts, ∃ n, q = .node n := by
    intro q inside
    cases e <;>
      simp only [Expr.parts, List.mem_cons, List.mem_map, List.not_mem_nil, or_false] at inside <;>
      grind [Phrase.expr, Phrase.type]
  obtain ⟨n, rfl⟩ := plain p member
  rw [List.mem_singleton.mp shown]

/-- A part of an expression is made of fewer tokens than the span of the expression covers. -/
theorem child_length_lt {fits : Phrase → List Token → Prop}
    (h : (Phrase.node (.expr e)).Built fits ts) (child : m ∈ (Node.expr e).children) :
    ∃ us, us <:+: (Phrase.node (.expr e)).covered ts ∧ (Phrase.node m).Built fits us ∧
      us.length < ((Phrase.node (.expr e)).covered ts).length := by
  have child := parts_of_child child
  obtain ⟨made, filled, -⟩ := h
  cases made with
  | node made =>
    cases made with
    | expr made =>
      cases member : (Phrase.node (.expr e)).isMember with
      | false =>
        rw [Phrase.covered_eq member]
        have more := made.signs_pos
        rw [← made.phrases] at child
        obtain ⟨us, inside, built, length⟩ := filled.part_length child
        exact ⟨us, inside, built, by omega⟩
      | true =>
        cases made with
        | member _ =>
          cases filled with
          | @part _ _ us _ built rest =>
            obtain ⟨t, vs, rfl, -, rest⟩ := rest.sign_inv
            obtain ⟨u, xs, rfl, -, -, rest⟩ := rest.word_inv
            cases rest
            obtain rfl := Phrase.node.inj (List.mem_singleton.mp child)
            rw [Phrase.covered_member member, List.dropLast_append_cons]
            exact ⟨us, (List.prefix_append _ _).isInfix, built, by simp⟩
        | _ => cases member

theorem expr_child_span (h : (Phrase.node (.expr e)).Built Phrase.Marked ts) (solid : Token.Solid ts)
    (child : m ∈ (Node.expr e).children) (start : m.span.start.offset = e.span.start.offset) :
    m.span.stop.offset ≠ e.span.stop.offset := by
  intro stop
  obtain ⟨us, inside, built, fewer⟩ := child_length_lt h child
  have solid := solid.part ((Phrase.node (.expr e)).covered_front ts).isInfix
  have front := (Phrase.node m).covered_front us
  have whole := solid.eq_of_covers h.marked built.marked (front.isInfix.trans inside) start stop
  have length := front.length_le
  rw [whole] at length
  omega

theorem start_lt_stop (h : (Phrase.node n).Built Phrase.Marked ts) (solid : Token.Solid ts) :
    n.span.start.offset < n.span.stop.offset := by
  have solid := solid.part ((Phrase.node n).covered_front ts).isInfix
  obtain ⟨t, first, start⟩ := h.marked.ends.1
  have taken := solid.taken t first
  have stop : t.stop.offset ≤ n.span.stop.offset := h.marked.le_stop solid.turns t first
  rw [start] at taken
  exact Int.lt_of_lt_of_le taken stop

theorem stop_inside (h : (Phrase.node n).Built Phrase.Marked ts) (turns : Token.InTurn ts)
    (below : m ∈ n.nodes) : m.span.stop.offset ≤ n.span.stop.offset := by
  refine built_induction (motive := fun n ts => Token.InTurn ts → m ∈ n.nodes →
    m.span.stop.offset ≤ n.span.stop.offset) ?_ n ts h turns below
  intro n ts h ih turns below
  obtain ⟨w, made⟩ := made_of_built h
  rw [made.nodes] at below
  rcases List.mem_cons.mp below with rfl | below
  · exact Int.le_refl _
  · obtain ⟨c, child, below⟩ := List.mem_flatMap.mp below
    obtain ⟨us, inside, -, found⟩ := ih c child
    have first := found (turns.sublist inside.sublist) below
    obtain ⟨-, -, second⟩ := (nests_of_built h turns).inside c child
    exact Int.le_trans first second

section

variable {P : Node → Node → Prop}
  (behind : ∀ {a b : Node}, a.span.start.offset < b.span.start.offset → P a b)

include behind

theorem pairwise_siblings {cs : List Node} (solid : Token.Solid ts)
    (made : ∀ c ∈ cs, ∃ us, us <:+: ts ∧ (Phrase.node c).Built Phrase.Marked us ∧
      c.nodes.Pairwise P)
    (turns : cs.Pairwise fun a b => a.span.stop.offset ≤ b.span.start.offset) :
    (cs.flatMap nodes).Pairwise P := by
  refine List.pairwise_flatMap.mpr ⟨fun c child => ?_, ?_⟩
  · obtain ⟨us, inside, -, apart⟩ := made c child
    exact apart
  · refine turns.imp_of_mem fun {a b} first second turn x left y right => behind ?_
    obtain ⟨us, here, built, -⟩ := made a first
    obtain ⟨vs, there, built', -⟩ := made b second
    have solid' := solid.part here
    obtain ⟨ws, inside, built''⟩ := built_nodes built left
    have some := start_lt_stop built'' (solid'.part inside)
    have ends := stop_inside built solid'.turns left
    obtain ⟨starts, -⟩ := start_inside built' (solid.part there).turns right
    omega

variable (below : ∀ {n m : Node} {ts : List Token}, (Phrase.node n).Built Phrase.Marked ts →
  Token.Solid ts → m ∈ n.children.flatMap nodes → P n m)

include below

theorem pairwise_nodes (h : (Phrase.node n).Built Phrase.Marked ts) (solid : Token.Solid ts) :
    n.nodes.Pairwise P := by
  refine built_induction (motive := fun n ts => Token.Solid ts → n.nodes.Pairwise P) ?_ n ts h solid
  intro n ts h ih solid
  obtain ⟨w, made⟩ := made_of_built h
  rw [made.nodes]
  refine List.pairwise_cons.mpr ⟨fun m => below h solid, ?_⟩
  refine pairwise_siblings behind solid (fun c child => ?_) (nests_of_built h solid.turns).apart
  obtain ⟨us, inside, built, apart⟩ := ih c child
  exact ⟨us, inside, built, apart (solid.part inside)⟩

theorem pairwise_read {table : Table} {name src : String} {file : File}
    (h : File.read table name src = .ok file) (root : ∀ m, P (.file file) m) :
    file.nodes.Pairwise P := by
  obtain ⟨ts, cut, built⟩ := File.read_built h
  have nests := Node.nests_of_built built cut.inTurn
  obtain ⟨made, filled, -⟩ := built
  cases made with
  | node made =>
    have nodes : file.nodes = .file file :: (Node.file file).children.flatMap Node.nodes := made.nodes
    cases made with
    | file =>
      -- the end mark is the only token that takes no text
      obtain ⟨us, vs, rfl, declared, last⟩ := filled.split
      obtain ⟨t, vs, rfl, -, rest⟩ := last.sign_inv
      cases rest
      obtain ⟨front, stop, same, plain, -⟩ := cut.ends
      obtain ⟨rfl, -⟩ := List.append_inj' same rfl
      have turns := cut.inTurn.sublist (List.prefix_append us [t]).sublist
      have solid : Token.Solid us := by
        refine ⟨turns, fun u member => ?_⟩
        have taken := Text.size_pos (cut.extent_ne_nil (List.mem_append_left _ member) (plain u member))
        rw [Token.stop_offset]
        omega
      have rows := (Phrase.Rows.of_filled declared).shown
      rw [phrases_parts] at rows
      rw [nodes]
      refine List.pairwise_cons.mpr ⟨fun m _ => root m, ?_⟩
      refine pairwise_siblings behind solid (fun c child => ?_) nests.apart
      obtain ⟨ws, inside, built⟩ := rows.mem (List.mem_map_of_mem child)
      exact ⟨ws, inside, built, pairwise_nodes behind below built (solid.part inside)⟩

end

/-- The spans differ if both nodes are expressions. -/
def Apart (a b : Node) : Prop := ∀ x y, a = .expr x → b = .expr y → x.span ≠ y.span

theorem apart_of_lt {a b : Node} (lt : a.span.start.offset < b.span.start.offset) : a.Apart b := by
  rintro x y rfl rfl same
  exact Int.ne_of_lt lt (congrArg (·.start.offset) same)

theorem apart_below (h : (Phrase.node n).Built Phrase.Marked ts) (solid : Token.Solid ts)
    (below : m ∈ n.children.flatMap nodes) : n.Apart m := by
  rintro e y rfl rfl same
  have span : (Node.expr y).span = (Node.expr e).span := same.symm
  obtain ⟨c, child, below⟩ := List.mem_flatMap.mp below
  obtain ⟨us, inside, built⟩ := (rows_children h).mem (List.mem_map_of_mem child)
  have turns := (solid.part (inside.trans ((Phrase.node _).covered_front ts).isInfix)).turns
  obtain ⟨start, -, stop⟩ := (nests_of_built h solid.turns).inside c child
  obtain ⟨start', -⟩ := start_inside built turns below
  have stop' := stop_inside built turns below
  rw [span] at start' stop'
  exact expr_child_span h solid child (Int.le_antisymm start' start) (Int.le_antisymm stop stop')

end Node

theorem File.read_apart {table : Table} {name src : String} {file : File}
    (h : File.read table name src = .ok file) : file.nodes.Pairwise Node.Apart :=
  Node.pairwise_read Node.apart_of_lt Node.apart_below h fun _ _ _ => nofun

end TastyLang
