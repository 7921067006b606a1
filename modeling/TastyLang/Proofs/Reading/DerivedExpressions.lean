import TastyLang.Proofs.Reading.Derivation
import TastyLang.Proofs.Reading.Spelling

/-!
# Reading types and expressions follows the grammar

What is read as a type or an expression is a phrase of the grammar made of the tokens that were read,
and all phrases in it have the spans that they should (`type_writes`, `expression_writes`).
-/

namespace TastyLang.Reader

open Cursor Piece

variable {α β : Type} {c₀ : Cursor} {v w : List Piece}

theorem dots_ne_nil {x : String} (h : Dots x w) : w ≠ [] := by
  cases h <;> simp

theorem dottedName_spells (n : Nat) : Spells (dottedName n) Dots := by
  refine .of fun c₀ => .begins ((name_writes _ _).bind fun first => ?_)
  refine .weaken (.iterates (fun x c => ∃ v, Dots x v ∧ c₀.Since v c)
    (fun x => .some_of fun v dots => ?_) n first) ?_
  rotate_left
  · exact fun c since => ⟨_, .word, since⟩
  · refine .checks ?_ (nextKind_since.bind fun k => .pure fun c since => ⟨v, dots, since⟩)
    refine nextKind_since.bind fun k => ?_
    split
    · refine (advance_kind (by nofun)).bind fun _ => (name_writes _ _).bind fun y => ?_
      refine .pure fun c since => ⟨_, .dot dots, ?_⟩
      rwa [List.append_assoc] at since
    · exact .pure fun c since => ⟨v, dots, since.1⟩

/-! ### Types -/

theorem splitOff_feeds {c c' : Cursor} {left : Token} {u : Unit}
    (two : c.current.halves? = some (⟨.op .greater, ">", c.current.pos⟩, left))
    (h : closeTemplate.splitOff c.current left c = .ok (u, c')) :
    c.Feeds [⟨.op .greater, ">", c.current.pos⟩] c' := by
  have same := modify_ok h
  obtain ⟨rest, stop, lastEnd, arities⟩ := c
  cases rest with
  | nil => cases two
  | cons t ts =>
    subst same
    exact ⟨.halves two (.refl _), rfl, rfl⟩

theorem closeTemplate_feeds {c c' : Cursor} {u : Unit} (h : closeTemplate c = .ok (u, c')) :
    ∃ t : Token, t.kind = .op .greater ∧ c.Feeds [t] c' := by
  obtain ⟨t, _, read, h⟩ := bind_ok h
  obtain ⟨rfl, rfl⟩ := current_ok read
  generalize kind : c.current.kind = k at h
  split at h
  · obtain ⟨rest, stop, lastEnd, arities⟩ := c
    have same := advance_eq h
    cases rest with
    | nil => cases kind
    | cons t ts =>
      subst same
      exact ⟨t, kind, .refl _, rfl, rfl⟩
  · exact ⟨_, rfl, splitOff_feeds (by simp [Token.halves?, kind]) h⟩
  · exact ⟨_, rfl, splitOff_feeds (by simp [Token.halves?, kind]) h⟩
  · exact absurd h unexpected_ok

theorem closeTemplate_since :
    Lays (c₀.Since w) closeTemplate fun _ => c₀.Since (w ++ [op .greater]) := by
  intro c c' u ordered since h
  obtain ⟨t, kind, feeds⟩ := closeTemplate_feeds h
  exact ⟨feeds.ordered ordered, since.append ⟨[t], feeds, filled_sign kind⟩⟩

theorem templateArg_writes {type : Reader TypeExpr} (each : Writes type Piece.type) :
    Writes (templateArg type) Piece.type := by
  refine .of fun c₀ => .at_current ?_
  split
  · next kind =>
    have kind := eq_of_beq kind
    refine (advance_at (kind ▸ nofun) (filled_word kind)).bind fun _ => ?_
    exact finish_here (fun _ => .node (.type .number)) (fun _ _ since => since) (by simp)
      fun _ => ⟨rfl, fun _ => rfl, trivial⟩
  · exact (each _ _).begins

theorem templateArgs_spells {opener : Token} {type : Reader TypeExpr}
    (each : Writes type Piece.type) (n : Nat) :
    Spells (templateArgs opener type n) fun ts v =>
      ∃ u, Row (ts.map Piece.type) u ∧ v = u ++ [op .greater] := by
  induction n with
  | zero => exact fun _ _ => .fails fun _ _ => exhausted_ok
  | succ n ih =>
    refine .of fun c₀ => .begins ((Lays.check _).bind fun ended => ?_)
    cases ended with
    | true => exact .fails_first fun _ _ => unclosed_ok
    | false =>
      refine (templateArg_writes each _ _).bind fun t => acceptOp_since.bind fun comma => ?_
      cases comma with
      | true =>
        refine (ih _ _).bind fun ts => .some_of fun v ⟨u, row, same⟩ => ?_
        refine .pure fun c since => ⟨_, ⟨_, .more row, rfl⟩, ?_⟩
        rw [same] at since
        exact since
      | false =>
        exact closeTemplate_since.bind fun _ => .pure fun c since => ⟨_, ⟨_, .last, rfl⟩, since⟩

theorem nameAndArgs_spells {n : Nat} {type : Reader TypeExpr} (each : Writes type Piece.type) :
    Spells (nameAndArgs n type) fun r v =>
      ∃ u w, Dots r.1 u ∧ TypeExpr.Angled r.2 w ∧ v = u ++ w := by
  refine .of fun c₀ => .begins ((dottedName_spells n _ _).bind fun x => .some_of fun u dots => ?_)
  refine .current fun t => ?_
  split
  · next kind =>
    have kind := eq_of_beq kind
    refine (advance_since (kind ▸ nofun) (filled_sign kind)).bind fun _ => ?_
    refine (templateArgs_spells each n _ _).bind fun args => .some_of fun v ⟨w, row, same⟩ => ?_
    refine .pure fun c since => ⟨_, ⟨u, _, dots, .some row, rfl⟩, ?_⟩
    rw [same, List.append_assoc] at since
    exact since
  · refine .pure fun c since => ⟨_, ⟨u, _, dots, .none, rfl⟩, ?_⟩
    rw [List.append_nil]
    exact since.1

theorem stars_since (n : Nat) :
    Lays (c₀.Since w) (stars n) fun k => c₀.Since (w ++ Piece.stars k) := by
  refine .weaken (.iterates (fun k c => c₀.Since (w ++ Piece.stars k) c)
    (fun k => acceptOp_since.bind fun star => ?_) n 0) ?_
  rotate_left
  · exact fun c since => by rwa [Piece.stars, List.replicate_zero, List.append_nil]
  · cases star with
    | true =>
      refine .pure fun c since => ?_
      rw [List.append_assoc] at since
      rw [Option.getD_some, Piece.stars, List.replicate_succ']
      exact since
    | false =>
      refine .pure fun c since => ?_
      rwa [given_false, List.append_nil] at since

theorem type_writes (n : Nat) : Writes (type n) Piece.type := by
  induction n with
  | zero => exact fun _ _ => .fails fun _ _ => exhausted_ok
  | succ n ih =>
    refine .of fun c₀ => .at_pos (.at_current ?_)
    split
    · next kind =>
      refine (advance_at (kind ▸ nofun) (filled_sign kind)).bind fun _ => ?_
      refine (commaList_spells ih n _ _).bind fun elems => .some_of fun v ⟨u, commas, same⟩ => ?_
      refine (stars_since n).bind fun k => ?_
      subst same
      exact finish_here (fun _ => .node (.type (.tuple commas))) (fun _ _ since => since) (by simp)
        fun _ => ⟨rfl, fun _ => rfl, trivial⟩
    · next kind =>
      refine (advance_at (kind ▸ nofun) (filled_sign kind)).bind fun _ => ?_
      refine expectOp_since.bind fun opener => ?_
      refine (commaList_spells ih n _ _).bind fun params => .some_of fun v ⟨u, commas, same⟩ => ?_
      refine (after?_since (fun _ => acceptOp_since) ih).bind fun result => ?_
      refine (stars_since n).bind fun k => ?_
      subst same
      exact finish_here (fun _ => .node (.type (.func commas))) (fun _ _ since => since) (by simp)
        fun _ => ⟨rfl, fun _ => rfl, trivial⟩
    · refine .begins ((nameAndArgs_spells ih _ _).bind fun r => .some_of fun v good => ?_)
      obtain ⟨u, w, dots, angled, rfl⟩ := good
      refine (stars_since n).bind fun k => ?_
      exact finish_here (w := u ++ w ++ Piece.stars k) (fun _ => .node (.type (.named dots angled)))
        (fun _ _ since => since) (by simp [dots_ne_nil dots]) fun _ => ⟨rfl, fun _ => rfl, trivial⟩

theorem typeName_writes (n : Nat) : Writes (typeName n) Piece.type := by
  refine .of fun c₀ => .at_pos (.begins ?_)
  refine (nameAndArgs_spells (type_writes n) _ _).bind fun r => .some_of fun v good => ?_
  obtain ⟨u, w, dots, angled, rfl⟩ := good
  have made (s : Span) : TypeExpr.Made (.named s r.1 r.2 0) (u ++ w) := by
    rw [← List.append_nil (u ++ w)]
    exact .named (k := 0) dots angled
  exact finish_here (w := u ++ w) (fun s => .node (.type (made s))) (fun _ _ since => since)
    (by simp [dots_ne_nil dots]) fun _ => ⟨rfl, fun _ => rfl, trivial⟩

/-! ### Expressions -/

section

variable {n : Nat} {expr : Reader Expr} (each : Writes expr Piece.expr)

include each

theorem args_spells :
    Spells (args n expr) fun xs v => ∃ u, Commas (xs.map Piece.expr) u ∧ v = bracketed u := by
  refine .of fun c₀ => .begins (expectOp_since.bind fun opener => ?_)
  refine (commaList_spells each n _ _).after_strengthen ?_
  rintro xs c ⟨v, ⟨u, commas, rfl⟩, since⟩
  exact ⟨_, ⟨u, commas, rfl⟩, since⟩

theorem argsHere_spells : Spells (argsHere n expr) fun xs v =>
    (xs = [] ∧ v = []) ∨ ∃ u, Commas (xs.map Piece.expr) u ∧ v = bracketed u := by
  refine .of fun c₀ => .begins ((Lays.check _).bind fun found => ?_)
  cases found with
  | true =>
    refine (args_spells each _ _).after_strengthen ?_
    rintro xs c ⟨v, good, since⟩
    exact ⟨v, .inr good, since⟩
  | false => exact .pure fun c since => ⟨_, .inl ⟨rfl, rfl⟩, since⟩

theorem elems_spells {more : Reader (List Expr)} (rest : Spells more fun xs v =>
      (xs = [] ∧ v = []) ∨ ∃ u, Commas (xs.map Piece.expr) u ∧ v = op .comma :: u) :
    Spells (do if ← checkOp .closeParen then return [] else return (← expr) :: (← more)) fun xs v =>
      Commas (xs.map Piece.expr) v := by
  refine .of fun c₀ => .begins ((Lays.check _).bind fun closed => ?_)
  cases closed with
  | true => exact .pure fun c since => ⟨_, .nil, since⟩
  | false =>
    refine (each _ _).bind fun x => (rest _ _).bind fun xs => .some_of fun v good => ?_
    refine .pure fun c since => ⟨_, ?_, since⟩
    rcases good with ⟨rfl, rfl⟩ | ⟨u, commas, rfl⟩
    · exact .last
    · exact .more commas

theorem moreElems_spells (k : Nat) : Spells (moreElems expr k) fun xs v =>
    (xs = [] ∧ v = []) ∨ ∃ u, Commas (xs.map Piece.expr) u ∧ v = op .comma :: u := by
  induction k with
  | zero => exact fun _ _ => .fails fun _ _ => exhausted_ok
  | succ k ih =>
    refine .of fun c₀ => .begins (acceptOp_since.bind fun comma => ?_)
    cases comma with
    | true =>
      refine (elems_spells each ih _ _).after_strengthen ?_
      rintro xs c ⟨v, commas, since⟩
      exact ⟨_, .inr ⟨v, commas, rfl⟩, since⟩
    | false => exact .pure fun c since => ⟨_, .inl ⟨rfl, rfl⟩, since⟩

theorem moreElems_since (k : Nat) :
    Lays (fun c => c₀.Since w c ∧ c.current.kind = .op .comma) (moreElems expr k) fun xs c =>
      ∃ v, Commas (xs.map Piece.expr) v ∧ c₀.Since (w ++ op .comma :: v) c := by
  cases k with
  | zero => exact .fails fun _ _ => exhausted_ok
  | succ k =>
    refine (accept_found (by nofun)).bind fun comma => ?_
    cases comma with
    | true =>
      refine .true_of ((elems_spells each (moreElems_spells each k) _ _).after_strengthen ?_)
      rintro xs c ⟨v, commas, since⟩
      rw [List.append_assoc] at since
      exact ⟨v, commas, since⟩
    | false => exact .never fun c h => nomatch h.1

omit each in
theorem literalOf_since {kind : LiteralKind} (kinds : c₀.current.kind ∈ kind.kinds) :
    Lays (· = c₀) (literalOf c₀.current kind) fun e => c₀.Since [Piece.expr e] := by
  have token : c₀.current.kind ≠ .eof := by
    rintro same
    rw [same] at kinds
    cases kind <;> simp [LiteralKind.kinds] at kinds
  refine (advance_at token (filled_word rfl)).bind fun _ => ?_
  exact finish_here (fun _ => .node (.expr (.literal kinds))) (fun _ _ since => since) (by simp)
    fun _ => ⟨rfl, fun _ => rfl, trivial⟩

theorem primary_writes : Writes (primary n expr) Piece.expr := by
  refine .of fun c₀ => .at_current ?_
  split
  · next kind =>
    refine literalOf_since ?_
    rw [kind]
    split <;> exact List.mem_singleton_self _
  · next kind => exact literalOf_since (kind ▸ List.mem_singleton_self _)
  · next kind => exact literalOf_since (kind ▸ List.mem_singleton_self _)
  · next kind => exact literalOf_since (kind ▸ List.mem_cons_self)
  · next kind => exact literalOf_since (kind ▸ List.mem_cons_of_mem _ List.mem_cons_self)
  · next kind => exact literalOf_since (kind ▸ List.mem_singleton_self _)
  · next kind =>
    refine (advance_at (kind ▸ nofun) (filled_word kind)).bind fun _ => ?_
    exact finish_here (fun _ => .node (.expr .ident)) (fun _ _ since => since) (by simp)
      fun _ => ⟨rfl, fun _ => rfl, trivial⟩
  · next kind =>
    refine (advance_at (kind ▸ nofun) (filled_sign kind)).bind fun _ => ?_
    exact finish_here (fun _ => .node (.expr .self)) (fun _ _ since => since) (by simp)
      fun _ => ⟨rfl, fun _ => rfl, trivial⟩
  · next kind =>
    refine (advance_at (kind ▸ nofun) (filled_sign kind)).bind fun _ => ?_
    refine (typeName_writes n _ _).bind fun t => ?_
    refine (argsHere_spells each _ _).bind fun xs => .some_of fun v good => ?_
    rcases good with ⟨rfl, rfl⟩ | ⟨u, commas, rfl⟩
    · exact finish_here (fun _ => .node (.expr .new)) (fun _ _ since => since) (by simp)
        fun _ => ⟨rfl, fun _ => rfl, trivial⟩
    · exact finish_here (fun _ => .node (.expr (.newWith commas))) (fun _ _ since => since)
        (by simp) fun _ => ⟨rfl, fun _ => rfl, trivial⟩
  · next kind =>
    refine (advance_at (kind ▸ nofun) (filled_sign kind)).bind fun _ => ?_
    refine (each _ _).bind fun first => .checks ?_ ?_
    · refine (moreElems_since each n).bind fun more => .some_of fun v commas => ?_
      refine close_since.bind fun _ => ?_
      exact finish_here (fun _ => .node (.expr (.tuple commas))) (fun _ _ since => since) (by simp)
        fun _ => ⟨rfl, fun _ => rfl, trivial⟩
    · refine close_since.bind fun _ => ?_
      exact finish_here (fun _ => .node (.expr .paren)) (fun _ _ since => since) (by simp)
        fun _ => ⟨rfl, fun _ => rfl, trivial⟩
  · exact .fails fun _ _ => unexpected_ok

omit each in
theorem memberName_spells : Spells memberName fun x v =>
    ∃ k, (k = .ident ∨ k.isReserved = true) ∧ v = [word k x] := by
  refine .of fun c₀ => .at_current ?_
  split
  · next reserved =>
    have token : c₀.current.kind ≠ .eof := fun same => by simp [same, Token.Kind.isReserved] at reserved
    refine (advance_at token (filled_word rfl)).bind fun _ => ?_
    exact .pure fun c since => ⟨_, ⟨_, .inr reserved, rfl⟩, since⟩
  · refine ((name_writes _ _).begins).after_strengthen fun x c since =>
      ⟨_, ⟨_, .inl rfl, rfl⟩, since⟩

omit each in
theorem castKind_spells : Spells castKind fun kind v => v = kind.pieces := by
  refine .of fun c₀ => .begins ((accept_since (by nofun)).bind fun static => ?_)
  cases static with
  | true => exact .pure fun c since => ⟨_, rfl, since⟩
  | false =>
    refine acceptWord_since.bind fun dynamic => ?_
    cases dynamic with
    | true => exact .pure fun c since => ⟨_, rfl, since⟩
    | false =>
      refine acceptWord_since.bind fun reinterpret => ?_
      cases reinterpret with
      | true => exact .pure fun c since => ⟨_, rfl, since⟩
      | false => exact .pure fun c since => ⟨_, rfl, since⟩

omit each in
theorem since_expr_pos {c : Cursor} {e : Expr} (since : c₀.Since (Piece.expr e :: w) c) :
    e.pos = c₀.pos := by
  obtain ⟨ts, feeds, filled⟩ := since
  cases filled with
  | part built _ =>
    obtain ⟨-, -, as⟩ := built
    obtain ⟨t, us, rfl, start⟩ := as.marked.head
    rw [feeds.pos]
    exact start.symm

omit each in
theorem member_since (accessor : Accessor) {x : Expr} :
    Lays (c₀.Since [Piece.expr x, op accessor.operator])
      (do let span ← spanFrom x.pos; return .member span x (← memberName) accessor)
      fun e => c₀.Since [Piece.expr e] := by
  intro c c' e ordered since h
  have start := since_expr_pos since
  obtain ⟨span, _, read, h⟩ := bind_ok h
  cases read
  obtain ⟨y, _, read, h⟩ := bind_ok h
  obtain ⟨rfl, rfl⟩ := pure_ok h
  obtain ⟨ordered', _, ⟨k, good, rfl⟩, name⟩ := memberName_spells c [] ordered (.refl c) read
  obtain ⟨ts, feeds, filled⟩ := since
  obtain ⟨us, feeds', filled'⟩ := name
  refine ⟨ordered', _, feeds.trans feeds', filled_part ?_⟩
  refine .mk (.node (.expr (.member good))) (filled.append filled') ⟨?_, trivial⟩
  -- the name is the last token
  cases filled' with
  | word rest =>
    cases rest
    obtain ⟨t, us, rfl⟩ := List.exists_cons_of_ne_nil (Read.ne_nil filled (List.cons_ne_nil _ _))
    rw [start]
    unfold Phrase.Marked Phrase.covered
    rw [List.dropLast_concat]
    exact feeds.covers

omit each in
theorem afterDot_since {x : Expr} :
    Lays (c₀.Since [Piece.expr x, op .dot]) (afterDot x.pos x) fun e => c₀.Since [Piece.expr e] := by
  refine .current fun t => ?_
  split
  · next kind =>
    have kind := eq_of_beq kind
    split
    · refine (advance_since (kind ▸ nofun) (filled_sign kind)).bind fun _ => ?_
      exact finish_since (fun _ => .node (.expr .tupleIndex)) (fun _ _ since => since)
        (fun _ => since_expr_pos) (by simp) fun _ => ⟨rfl, fun _ => rfl, trivial⟩
    · exact .fails fun _ _ => failAt_ok
  · exact (member_since .dot).drop

theorem suffix?_since {x : Expr} :
    Lays (c₀.Since [Piece.expr x]) (suffix? n expr x) fun r =>
      c₀.Since [Piece.expr (r.getD x)] := by
  refine .current fun t => ?_
  split
  · refine .drop ((args_spells each _ _).bind fun xs => .some_of fun v ⟨u, commas, same⟩ => ?_)
    subst same
    exact finish_since (fun _ => .node (.expr (.call commas))) (fun _ _ since => since)
      (fun _ => since_expr_pos) (by simp) fun _ => ⟨rfl, fun _ => rfl, trivial⟩
  · next kind =>
    refine (advance_since (kind ▸ nofun) (filled_sign kind)).bind fun _ => ?_
    refine (each _ _).bind fun i => close_since.bind fun _ => ?_
    exact finish_since (fun _ => .node (.expr .index)) (fun _ _ since => since)
      (fun _ => since_expr_pos) (by simp) fun _ => ⟨rfl, fun _ => rfl, trivial⟩
  · next kind =>
    refine (advance_since (kind ▸ nofun) (filled_sign kind)).bind fun _ => ?_
    exact afterDot_since.map fun _ _ since => since
  · next kind =>
    refine .map ?_ fun _ _ since => since
    refine (advance_since (kind ▸ nofun) (filled_sign kind)).bind fun _ => ?_
    exact member_since .arrow
  · next kind =>
    refine .map ?_ fun _ _ since => since
    refine (advance_since (kind ▸ nofun) (filled_sign kind)).bind fun _ => ?_
    exact member_since .scope
  · next kind =>
    refine (advance_since (kind ▸ nofun) (filled_sign kind)).bind fun _ => ?_
    exact finish_since (fun _ => .node (.expr (.trailing (.inl rfl)))) (fun _ _ since => since)
      (fun _ => since_expr_pos) (by simp) fun _ => ⟨rfl, fun _ => rfl, trivial⟩
  · next kind =>
    refine (advance_since (kind ▸ nofun) (filled_sign kind)).bind fun _ => ?_
    exact finish_since (fun _ => .node (.expr (.trailing (.inr rfl)))) (fun _ _ since => since)
      (fun _ => since_expr_pos) (by simp) fun _ => ⟨rfl, fun _ => rfl, trivial⟩
  · next kind =>
    refine (advance_since (kind ▸ nofun) (filled_sign kind)).bind fun _ => ?_
    refine (castKind_spells _ _).bind fun kind => .some_of fun v same => ?_
    refine (type_writes n _ _).bind fun t => ?_
    subst same
    exact finish_since (fun _ => .node (.expr .cast)) (fun _ _ since => since)
      (fun _ => since_expr_pos) (by simp) fun _ => ⟨rfl, fun _ => rfl, trivial⟩
  · exact .pure fun c since => since.1

theorem suffixes_since :
    Lays (· = c₀) (primary n expr >>= iterate (suffix? n expr) n) fun e =>
      c₀.Since [Piece.expr e] := by
  refine .begins ((primary_writes each _ _).bind fun x => ?_)
  exact .iterates (fun e c => c₀.Since [Piece.expr e] c)
    (fun x => suffix?_since each) n x

theorem operand_writes (k : Nat) : Writes (operand n expr k) Piece.expr := by
  induction k with
  | zero => exact fun _ _ => .fails fun _ _ => exhausted_ok
  | succ k ih =>
    refine .of fun c₀ => .at_current ?_
    split
    · next kind =>
      split
      · next leading =>
        refine (advance_at (kind ▸ nofun) (filled_sign kind)).bind fun _ => ?_
        refine (ih _ _).bind fun x => ?_
        exact finish_here (fun _ => .node (.expr (.leading leading))) (fun _ _ since => since) (by simp)
          fun _ => ⟨rfl, fun _ => rfl, trivial⟩
      · exact suffixes_since each
    · next kind =>
      refine (advance_at (kind ▸ nofun) (filled_sign kind)).bind fun _ => ?_
      refine (ih _ _).bind fun x => ?_
      exact finish_here (fun _ => .node (.expr .delete)) (fun _ _ since => since) (by simp)
        fun _ => ⟨rfl, fun _ => rfl, trivial⟩
    · exact suffixes_since each

end

theorem infix?_since {table : Table} {expr : Int → Reader Expr} {least : Int} {left : Expr}
    (each : ∀ p, Writes (expr p) Piece.expr) :
    Lays (c₀.Since [Piece.expr left]) (infix? table expr c₀.pos least left) fun r =>
      c₀.Since [Piece.expr (r.getD left)] := by
  refine .current fun t => ?_
  split
  · exact .pure fun c since => since.1
  · next o b found =>
    have kind : t.kind = .op o := by
      unfold bindingOf? at found
      split at found
      · next o' kind =>
        obtain ⟨_, -, same⟩ := Option.map_eq_some_iff.mp found
        cases same
        exact kind
      · cases found
    split
    · exact .pure fun c since => since.1
    · refine (advance_since (kind ▸ nofun) (filled_sign kind)).bind fun _ => ?_
      split
      · refine (each _ _ _).bind fun yes => skip_since.bind fun _ => (each _ _ _).bind fun no => ?_
        exact finish_here (fun _ => .node (.expr .ternary)) (fun _ _ since => since) (by simp)
          fun _ => ⟨rfl, fun _ => rfl, trivial⟩
      · refine (each _ _ _).bind fun right => ?_
        exact finish_here (fun _ => .node (.expr .range)) (fun _ _ since => since) (by simp)
          fun _ => ⟨rfl, fun _ => rfl, trivial⟩
      · next noRange =>
        refine (each _ _ _).bind fun right => ?_
        exact finish_here (fun _ => .node (.expr (.binary noRange))) (fun _ _ since => since) (by simp)
          fun _ => ⟨rfl, fun _ => rfl, trivial⟩

theorem expressionFrom_writes (table : Table) (n : Nat) (least : Int) :
    Writes (expressionFrom table n least) Piece.expr := by
  induction n generalizing least with
  | zero => exact fun _ _ => .fails fun _ _ => exhausted_ok
  | succ n ih =>
    refine .of fun c₀ => .at_pos (.begins ((operand_writes (ih 1) n _ _).bind fun left => ?_))
    exact .iterates (fun e c => c₀.Since [Piece.expr e] c)
      (fun x => infix?_since ih) n left

theorem expression_writes (table : Table) (n : Nat) : Writes (expression table n) Piece.expr :=
  expressionFrom_writes table n 1

end TastyLang.Reader
