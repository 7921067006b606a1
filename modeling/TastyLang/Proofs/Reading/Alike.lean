import TastyLang.Proofs.Reading.Cursor
import TastyLang.Proofs.Reading.Spelling
import TastyLang.Reading.Expressions

/-!
# Reading tokens that look alike

Places do not matter to a reader. `Agrees S key r r'` compares two readers in front of two texts:
where `r` gives something in front of the one, `r'` gives the same in front of the other, up to what
`key` forgets, and the cursors stay related by `S`. Readers that were given fewer steps may also run
out of them. Types are read alike in front of any cursors that are `Kin`: those may differ in how
closing brackets are cut. Expressions are read alike in front of the same forms (`Cursor.Same`).
-/

namespace TastyLang

open Token (Form)

/-- The kinds of token that a closing bracket can be read off. -/
def Token.Kind.closing : List Token.Kind := [.op .greater, .op .shiftRight, .op .greaterEqual]

/-- The same forms, or closing brackets that were cut in different ways. -/
def Token.Alike (t u : Token) : Prop :=
  t.form = u.form ∨ t.kind ∈ Kind.closing ∧ u.kind ∈ Kind.closing

variable {k : Token.Kind}

theorem Token.Alike.beq {t u : Token} (h : t.Alike u) (other : k ∉ Kind.closing) :
    (t.kind == k) = (u.kind == k) := by
  rcases h with same | ⟨left, right⟩
  · rw [show t.kind = u.kind from congrArg Form.kind same]
  · rw [beq_eq_false_iff_ne.mpr fun same : t.kind = k => other (same ▸ left),
      beq_eq_false_iff_ne.mpr fun same : u.kind = k => other (same ▸ right)]

theorem Token.Alike.form {t u : Token} (h : t.Alike u) (other : t.kind ∉ Kind.closing) :
    t.form = u.form := h.resolve_right fun both => other both.1

theorem TypeExpr.bareAll_eq (ts : List TypeExpr) : bareAll ts = ts.map bare := by
  induction ts with
  | nil => rfl
  | cons t ts ih => rw [bareAll, ih, List.map_cons]

theorem Expr.bareAll_eq (es : List Expr) : bareAll es = es.map bare := by
  induction es with
  | nil => rfl
  | cons e es ih => rw [bareAll, ih, List.map_cons]

variable {o : Operator} {p q : Pos}

namespace Reader

variable {α β γ δ : Type} {S T pre : Cursor → Cursor → Prop} {key : α → γ} {key' : β → δ}
  {t u : Token}

/-- Where `r` gives something, `r'` gives the same for a related cursor, or runs out of steps. -/
def Agrees (S pre : Cursor → Cursor → Prop) (key : α → γ) (r r' : Reader α) : Prop :=
  ∀ ⦃c d c' : Cursor⦄ ⦃a : α⦄, pre c d → r c = .ok (a, c') →
    r' d = .error .exhausted ∨ ∃ b d', r' d = .ok (b, d') ∧ S c' d' ∧ key a = key b

/-- Related cursors, of which the first one stands at a token. -/
def At (S : Cursor → Cursor → Prop) (t : Token) (c d : Cursor) : Prop := S c d ∧ c.current = t

/-- Nothing is kept of a result. -/
abbrev ignored (_ : α) : Unit := ()

theorem Agrees.bind {r r' : Reader α} {f g : α → Reader β} (first : Agrees T pre key r r')
    (next : ∀ a b, key a = key b → Agrees S T key' (f a) (g b)) :
    Agrees S pre key' (r >>= f) (r' >>= g) := by
  intro c d c' b related h
  obtain ⟨a, c₁, run, h⟩ := bind_ok h
  show (r' d >>= fun p => g p.1 p.2) = _ ∨ ∃ b d', (r' d >>= fun p => g p.1 p.2) = _ ∧ _
  rcases first related run with spent | ⟨a', d₁, run', related₁, same⟩
  · rw [spent]
    exact .inl rfl
  · rw [run']
    exact next a a' same related₁ h

theorem Agrees.pure {a b : α} (same : key a = key b) :
    Agrees S S key (Pure.pure a) (Pure.pure b) := by
  intro c d c' a' related h
  obtain ⟨rfl, rfl⟩ := pure_ok h
  exact .inr ⟨b, d, rfl, related, same⟩

theorem Agrees.map {r r' : Reader α} {f : α → β} (h : Agrees S pre key r r')
    (same : ∀ a b, key a = key b → key' (f a) = key' (f b)) :
    Agrees S pre key' (f <$> r) (f <$> r') := by
  rw [map_eq_pure_bind, map_eq_pure_bind]
  exact h.bind fun a b keys => .pure (same a b keys)

theorem Agrees.discard {r r' : Reader α} (h : Agrees S pre key r r') :
    Agrees S pre ignored (Functor.discard r) (Functor.discard r') := h.map fun _ _ _ => rfl

theorem Agrees.at {r r' : Reader α} (h : Agrees S S key r r') : Agrees S (At S t) key r r' :=
  fun _ _ _ _ related => h related.1

theorem Agrees.never {r r' : Reader α} (fails : ∀ {c x}, r c ≠ .ok x) : Agrees S pre key r r' :=
  fun _ _ _ _ _ run => absurd run fails

theorem Agrees.never_bind {r : Reader α} {f : α → Reader β} {r' : Reader β}
    (fails : ∀ {c x}, r c ≠ .ok x) : Agrees S pre key' (r >>= f) r' :=
  .never fun run => by
    obtain ⟨_, _, first, -⟩ := bind_ok run
    exact fails first

theorem Agrees.spent {r : Reader α} : Agrees S pre key r exhausted :=
  fun _ _ _ _ _ _ => .inl rfl

theorem agrees_pos {f g : Pos → Reader β} (next : ∀ p q, Agrees S pre key' (f p) (g q)) :
    Agrees S pre key' (pos >>= f) (pos >>= g) :=
  fun _ _ _ _ related h => next _ _ related h

theorem agrees_span {f g : Span → Reader β} (next : ∀ s s', Agrees S pre key' (f s) (g s')) :
    Agrees S pre key' (spanFrom p >>= f) (spanFrom q >>= g) :=
  fun _ _ _ _ related h => next _ _ related h

theorem agrees_finish {f g : Span → α} (same : ∀ s s', key (f s) = key (g s')) :
    Agrees S S key (do return f (← spanFrom p)) (do return g (← spanFrom q)) :=
  agrees_span fun s s' => .pure (same s s')

theorem agrees_nextKind {f g : Token.Kind → Reader β} (next : ∀ k k', Agrees S pre key' (f k) (g k')) :
    Agrees S pre key' (nextKind >>= f) (nextKind >>= g) :=
  fun _ _ _ _ related h => next _ _ related h

/-! ### Loops -/

theorem iterate_agrees {step step' : α → Reader (Option α)}
    (once : ∀ x y, key x = key y → Agrees S S (Option.map key) (step x) (step' y)) (n m : Nat)
    {x y : α} (start : key x = key y) : Agrees S S key (iterate step n x) (iterate step' m y) := by
  induction n generalizing m x y with
  | zero => exact .never exhausted_ok
  | succ n ih =>
    cases m with
    | zero => exact .spent
    | succ m =>
      refine (once x y start).bind fun a b same => ?_
      cases a with
      | none =>
        obtain rfl := Option.map_eq_none_iff.mp same.symm
        exact .pure start
      | some x' =>
        obtain ⟨y', rfl, next⟩ := Option.map_eq_some_iff.mp same.symm
        exact ih m next.symm

/-! ### Types -/

/-- Cursors that readers of types cannot tell apart. -/
structure Kin (S : Cursor → Cursor → Prop) : Prop where
  alike : ∀ {c d}, S c d → c.current.Alike d.current
  next : ∀ {c d}, S c d → c.current.kind = .op .dot → (c.nextKind == .ident) = (d.nextKind == .ident)
  advance : ∀ {t : Token}, t.kind ∈ Token.Kind.ofTypes → Agrees S (At S t) ignored advance advance
  close : Agrees S S ignored closeTemplate closeTemplate

section

variable (kin : Kin S)

include kin

theorem agrees_current {f g : Token → Reader β}
    (next : ∀ t u, t.Alike u → Agrees S (At S t) key' (f t) (g u)) :
    Agrees S S key' (current >>= f) (current >>= g) :=
  fun _ _ _ _ related h => next _ _ (kin.alike related) ⟨related, rfl⟩ h

theorem agrees_advance {f g : Unit → Reader β} (kind : t.kind ∈ Token.Kind.ofTypes)
    (next : Agrees S S key' (f ()) (g ())) :
    Agrees S (At S t) key' (advance >>= f) (advance >>= g) :=
  (kin.advance kind).bind fun _ _ _ => next

theorem agrees_check {f g : Bool → Reader β} (other : k ∉ Token.Kind.closing)
    (yes : ∀ t : Token, t.kind = k → Agrees S (At S t) key' (f true) (g true))
    (no : Agrees S S key' (f false) (g false)) :
    Agrees S S key' (check k >>= f) (check k >>= g) := by
  unfold check
  rw [bind_assoc, bind_assoc]
  refine agrees_current kin fun t u alike => ?_
  rw [pure_bind, pure_bind, ← alike.beq other]
  cases here : t.kind == k with
  | true => exact yes t (eq_of_beq here)
  | false => exact no.at

theorem agrees_accept {f g : Bool → Reader β} (kind : k ∈ Token.Kind.ofTypes)
    (yes : Agrees S S key' (f true) (g true)) (no : Agrees S S key' (f false) (g false)) :
    Agrees S S key' (accept k >>= f) (accept k >>= g) := by
  have other : ∀ k ∈ Token.Kind.ofTypes, k ∉ Token.Kind.closing := by decide
  unfold accept
  rw [bind_assoc, bind_assoc]
  refine agrees_check kin (other k kind) (fun t same => ?_) ?_
  · rw [if_pos rfl, bind_assoc, bind_assoc]
    exact agrees_advance kin (same ▸ kind) yes
  · rw [if_neg Bool.false_ne_true, pure_bind]
    exact no

theorem expect_agrees (kind : k ∈ Token.Kind.ofTypes) :
    Agrees S S ignored (expect k) (expect k) := by
  have other : ∀ k ∈ Token.Kind.ofTypes, k ∉ Token.Kind.closing := by decide
  refine agrees_current kin fun t u alike => ?_
  rw [← alike.beq (other k kind)]
  split
  · next here => exact agrees_advance kin (eq_of_beq here ▸ kind) (.pure rfl)
  · exact .never unexpected_ok

theorem close_agrees (kind : .op o ∈ Token.Kind.ofTypes) :
    Agrees S S ignored (close o t) (close o u) := by
  refine agrees_check kin (by decide) (fun _ _ => ?_) ?_
  · exact .never_bind unclosed_ok
  · exact (expect_agrees kin kind).discard

theorem name_agrees : Agrees S S id name name := by
  refine agrees_current kin fun t u alike => ?_
  rw [← alike.beq (by decide)]
  split
  · next here =>
    have kind : t.kind = .ident := eq_of_beq here
    have same := alike.form (by rw [kind]; decide)
    refine agrees_advance kin (by rw [kind]; decide) (.pure ?_)
    exact congrArg Form.literal same
  · exact .never failAt_ok

theorem after?_agrees {r r' : Reader α} (kind : .op o ∈ Token.Kind.ofTypes)
    (item : Agrees S S key r r') :
    Agrees S S (Option.map key) (after? (acceptOp o) r) (after? (acceptOp o) r') := by
  refine agrees_accept kin kind (item.map fun a b same => ?_) (.pure rfl)
  rw [Option.map_some, Option.map_some, same]

theorem commaList_agrees {item item' : Reader α} (kind : .op o ∈ Token.Kind.ofTypes)
    (each : Agrees S S key item item') (n m : Nat) :
    Agrees S S (List.map key) (commaList t o item n) (commaList u o item' m) := by
  have other : ∀ k ∈ Token.Kind.ofTypes, k ∉ Token.Kind.closing := by decide
  induction n generalizing m with
  | zero => exact .never exhausted_ok
  | succ n ih =>
    cases m with
    | zero => exact .spent
    | succ m =>
      refine agrees_check kin (other _ kind) (fun t _ => ?_) ?_
      · exact ((close_agrees kin kind).bind fun _ _ _ => .pure rfl).at
      · refine agrees_check kin (by decide) (fun _ _ => .never_bind unclosed_ok) ?_
        refine each.bind fun x y same => agrees_accept kin (by decide) ?_ ?_
        · exact (ih m).bind fun xs ys more => .pure (by rw [List.map_cons, List.map_cons, same, more])
        · refine (close_agrees kin kind).bind fun _ _ _ => .pure ?_
          rw [List.map_cons, List.map_cons, same]

theorem agrees_next {f g : Token.Kind → Reader β} (dot : t.kind = .op .dot)
    (next : ∀ k k', (k == .ident) = (k' == .ident) → Agrees S (At S t) key' (f k) (g k')) :
    Agrees S (At S t) key' (nextKind >>= f) (nextKind >>= g) :=
  fun _ _ _ _ related h =>
    next _ _ (kin.next related.1 ((congrArg Token.kind related.2).trans dot)) related h

theorem dottedName_agrees (n m : Nat) : Agrees S S id (dottedName n) (dottedName m) := by
  refine (name_agrees kin).bind fun x y same => iterate_agrees (fun s s' same => ?_) n m same
  obtain rfl : s = s' := same
  refine agrees_check kin (by decide) (fun t dot => ?_) ?_
  · refine agrees_next kin dot fun k k' word => ?_
    rw [← word]
    split
    · refine agrees_advance kin (by rw [dot]; decide) ((name_agrees kin).bind fun w w' more => ?_)
      obtain rfl : w = w' := more
      exact .pure rfl
    · exact (Agrees.pure rfl).at
  · refine agrees_nextKind fun k k' => ?_
    exact .pure rfl

theorem stars_agrees (n m : Nat) : Agrees S S id (stars n) (stars m) := by
  refine iterate_agrees (fun k k' same => ?_) n m rfl
  obtain rfl : k = k' := same
  exact agrees_accept kin (by decide) (.pure rfl) (.pure rfl)

variable {type type' : Reader TypeExpr} (each : Agrees S S TypeExpr.bare type type')

include each

theorem templateArg_agrees : Agrees S S TypeExpr.bare (templateArg type) (templateArg type') := by
  refine agrees_current kin fun t u alike => ?_
  rw [← alike.beq (by decide)]
  split
  · next here =>
    have kind : t.kind = .number := eq_of_beq here
    have same : t.literal = u.literal :=
      congrArg Form.literal (alike.form (by rw [kind]; decide))
    refine agrees_advance kin (by rw [kind]; decide) (agrees_finish fun s s' => ?_)
    simp only [TypeExpr.bare, same]
  · exact each.at

theorem templateArgs_agrees (n m : Nat) :
    Agrees S S (List.map TypeExpr.bare) (templateArgs t type n) (templateArgs u type' m) := by
  induction n generalizing m with
  | zero => exact .never exhausted_ok
  | succ n ih =>
    cases m with
    | zero => exact .spent
    | succ m =>
      refine agrees_check kin (by decide) (fun _ _ => .never_bind unclosed_ok) ?_
      refine (templateArg_agrees kin each).bind fun x y same => agrees_accept kin (by decide) ?_ ?_
      · exact (ih m).bind fun xs ys more => .pure (by rw [List.map_cons, List.map_cons, same, more])
      · exact kin.close.bind fun _ _ _ => .pure (by rw [List.map_cons, List.map_cons, same])

/-- A name and its arguments, without their spans. -/
def bareArgs (r : String × List TypeExpr) : String × List TypeExpr := (r.1, r.2.map TypeExpr.bare)

theorem nameAndArgs_agrees (n m : Nat) :
    Agrees S S bareArgs (nameAndArgs n type) (nameAndArgs m type') := by
  refine (dottedName_agrees kin n m).bind fun x y same => agrees_current kin fun t u alike => ?_
  obtain rfl : x = y := same
  rw [← alike.beq (by decide)]
  split
  · next here =>
    have kind : t.kind = .op .less := eq_of_beq here
    refine agrees_advance kin (by rw [kind]; decide) ?_
    exact (templateArgs_agrees kin each n m).bind fun xs ys more => .pure (congrArg (x, ·) more)
  · exact (Agrees.pure rfl).at

omit each

theorem type_agrees (n m : Nat) : Agrees S S TypeExpr.bare (Reader.type n) (Reader.type m) := by
  induction n generalizing m with
  | zero => exact .never exhausted_ok
  | succ n ih =>
    cases m with
    | zero => exact .spent
    | succ m =>
      rw [Reader.type, Reader.type]
      refine agrees_pos fun p q => agrees_current kin fun t u alike => ?_
      have kinds : t.kind = u.kind ∨ t.kind ∈ Token.Kind.closing ∧ u.kind ∈ Token.Kind.closing :=
        alike.imp_left (congrArg Form.kind)
      generalize here : t.kind = k at kinds
      generalize u.kind = k' at kinds
      split
      · obtain rfl := kinds.resolve_right fun both => absurd both.1 (by decide)
        refine agrees_advance kin (by rw [here]; decide) ?_
        refine (commaList_agrees kin (by decide) (ih m) n m).bind fun ts us same => ?_
        refine (stars_agrees kin n m).bind fun i j stars => agrees_finish fun s s' => ?_
        obtain rfl : i = j := stars
        simp only [TypeExpr.bare, TypeExpr.bareAll_eq, same]
      · obtain rfl := kinds.resolve_right fun both => absurd both.1 (by decide)
        refine agrees_advance kin (by rw [here]; decide) ?_
        refine (expect_agrees kin (by decide)).bind fun _ _ _ => ?_
        refine (commaList_agrees kin (by decide) (ih m) n m).bind fun ts us same => ?_
        refine (after?_agrees kin (by decide) (ih m)).bind fun r r' result => ?_
        refine (stars_agrees kin n m).bind fun i j stars => agrees_finish fun s s' => ?_
        obtain rfl : i = j := stars
        cases r with
        | none =>
          obtain rfl := Option.map_eq_none_iff.mp result.symm
          simp only [TypeExpr.bare, TypeExpr.bareAll_eq, same]
        | some r =>
          obtain ⟨r', rfl, same'⟩ := Option.map_eq_some_iff.mp result.symm
          simp only [TypeExpr.bare, TypeExpr.bareAll_eq, same, same']
      · next other other' =>
        split
        · rcases kinds with rfl | both
          · exact absurd rfl other
          · exact absurd both.2 (by decide)
        · rcases kinds with rfl | both
          · exact absurd rfl other'
          · exact absurd both.2 (by decide)
        · refine ((nameAndArgs_agrees kin (ih m) n m).bind fun r r' same => ?_).at
          refine (stars_agrees kin n m).bind fun i j stars => agrees_finish fun s s' => ?_
          obtain rfl : i = j := stars
          injection same with name args
          simp only [TypeExpr.bare, TypeExpr.bareAll_eq, name, args]

theorem typeName_agrees (n m : Nat) : Agrees S S TypeExpr.bare (typeName n) (typeName m) := by
  refine agrees_pos fun p q => ?_
  refine (nameAndArgs_agrees kin (type_agrees kin n m) n m).bind fun r r' same => ?_
  refine agrees_finish fun s s' => ?_
  injection same with name args
  simp only [TypeExpr.bare, TypeExpr.bareAll_eq, name, args]

end

end Reader

/-! ### The same forms -/

/-- Both cursors stand in front of the same forms, behind which the texts end well. -/
def Cursor.Same (c d : Cursor) : Prop := ∃ fs, c.Holds fs ∧ d.Holds fs

theorem Cursor.Holds.nextKind {c : Cursor} {fs : List Form} (h : c.Holds fs) :
    c.nextKind = (Form.first fs.tail).kind := by
  obtain ⟨rfl, -⟩ := h
  unfold Cursor.nextKind
  rcases c.rest with _ | ⟨t, _ | ⟨u, ts⟩⟩ <;> rfl

namespace Reader

variable {α β γ δ : Type} {key : α → γ} {key' : β → δ} {n m : Nat}

open Cursor (Same)

/-- Reading the same forms gives the same. -/
abbrev Matches (key : α → γ) (r r' : Reader α) : Prop := Agrees Same Same key r r'

theorem matches_current {f g : Token → Reader β}
    (next : ∀ k l p q, Matches key' (f ⟨k, l, p⟩) (g ⟨k, l, q⟩)) :
    Matches key' (current >>= f) (current >>= g) := by
  rintro c d c' a ⟨fs, left, right⟩ h
  have same : d.current.form = c.current.form := right.current.trans left.current.symm
  have here : (⟨c.current.kind, c.current.literal, d.current.pos⟩ : Token) = d.current := by
    rw [← show d.current.kind = c.current.kind from congrArg Form.kind same,
      ← show d.current.literal = c.current.literal from congrArg Form.literal same]
  have step := next c.current.kind c.current.literal c.current.pos d.current.pos ⟨fs, left, right⟩ h
  rwa [here] at step

theorem advance_matches : Matches ignored advance advance := by
  rintro c d c' _ ⟨fs, left, right⟩ h
  obtain ⟨_, c₁, run, left', -⟩ := advance_gives c left
  obtain ⟨_, d₁, run', right', -⟩ := advance_gives d right
  cases h.symm.trans run
  exact .inr ⟨_, d₁, run', ⟨_, left', right'⟩, rfl⟩

theorem matches_advance {f g : Unit → Reader β} (next : Matches key' (f ()) (g ())) :
    Matches key' (advance >>= f) (advance >>= g) := advance_matches.bind fun _ _ _ => next

theorem splitOff_matches {l : String} :
    Matches ignored (closeTemplate.splitOff t ⟨k, l, p⟩) (closeTemplate.splitOff u ⟨k, l, q⟩) := by
  rintro c d c' _ ⟨fs, left, right⟩ h
  obtain rfl := modify_ok h
  have tail {c : Cursor} (holds : c.Holds fs) : c.rest.tail.map Token.form = fs.tail := by
    rw [List.map_tail, holds.rest]
  refine .inr ⟨(), _, rfl, ⟨⟨k, l⟩ :: fs.tail, ⟨?_, left.stop⟩, ⟨?_, right.stop⟩⟩, rfl⟩
  · exact congrArg (Form.mk k l :: ·) (tail left)
  · exact congrArg (Form.mk k l :: ·) (tail right)

theorem same_kin : Kin Same where
  alike := by
    rintro c d ⟨fs, left, right⟩
    exact .inl (left.current.trans right.current.symm)
  next := by
    rintro c d ⟨fs, left, right⟩ -
    rw [left.nextKind, right.nextKind]
  advance := fun _ => advance_matches.at
  close := by
    refine matches_current fun k l p q => ?_
    dsimp only
    split
    · exact advance_matches
    · exact splitOff_matches
    · exact splitOff_matches
    · exact .never unexpected_ok

theorem matches_check {f g : Bool → Reader β}
    (next : ∀ b, Matches key' (f b) (g b)) : Matches key' (check k >>= f) (check k >>= g) := by
  unfold check
  rw [bind_assoc, bind_assoc]
  exact matches_current fun _ _ _ _ => next _

theorem accept_matches : Matches id (accept k) (accept k) :=
  matches_check fun b => by
    cases b with
    | true => exact matches_advance (.pure rfl)
    | false => exact .pure rfl

theorem acceptWord_matches {w : String} : Matches id (acceptWord w) (acceptWord w) :=
  matches_current fun k l p q => by
    dsimp only
    split
    · exact matches_advance (.pure rfl)
    · exact .pure rfl

theorem expect_matches : Matches ignored (expect k) (expect k) :=
  matches_current fun k' l p q => by
    dsimp only
    split
    · exact matches_advance (.pure rfl)
    · exact .never unexpected_ok

theorem close_matches : Matches ignored (close o t) (close o u) :=
  matches_check fun b => by
    cases b with
    | true => exact .never_bind unclosed_ok
    | false => exact expect_matches.discard

theorem name_matches : Matches id name name := name_agrees same_kin

theorem memberName_matches : Matches id memberName memberName :=
  matches_current fun k l p q => by
    dsimp only
    split
    · exact matches_advance (.pure rfl)
    · exact name_matches

/-! ### Expressions -/

variable {x y : Expr} {start start' : Pos}

section

variable {expr expr' : Reader Expr} (each : Matches Expr.bare expr expr')

include each

theorem args_matches : Matches (List.map Expr.bare) (args n expr) (args m expr') :=
  expect_matches.bind fun _ _ _ => commaList_agrees same_kin (by decide) each n m

theorem argsHere_matches : Matches (List.map Expr.bare) (argsHere n expr) (argsHere m expr') :=
  matches_check fun b => by
    cases b with
    | true => exact args_matches each
    | false => exact .pure rfl

theorem moreElems_matches (n m : Nat) :
    Matches (List.map Expr.bare) (moreElems expr n) (moreElems expr' m) := by
  induction n generalizing m with
  | zero => exact .never exhausted_ok
  | succ n ih =>
    cases m with
    | zero => exact .spent
    | succ m =>
      refine accept_matches.bind fun b b' same => ?_
      obtain rfl : b = b' := same
      cases b with
      | false => exact .pure rfl
      | true =>
        refine matches_check fun b => ?_
        cases b with
        | true => exact .pure rfl
        | false =>
          refine each.bind fun x y same => (ih m).bind fun xs ys more => .pure ?_
          rw [List.map_cons, List.map_cons, same, more]

omit each in
theorem literalOf_matches {l : String} {kind : LiteralKind} :
    Matches Expr.bare (literalOf ⟨k, l, p⟩ kind) (literalOf ⟨k, l, q⟩ kind) :=
  matches_advance (agrees_finish fun s s' => by simp only [Expr.bare])

theorem primary_matches : Matches Expr.bare (primary n expr) (primary m expr') := by
  refine matches_current fun k l p q => ?_
  dsimp only
  split
  · exact literalOf_matches
  · exact literalOf_matches
  · exact literalOf_matches
  · exact literalOf_matches
  · exact literalOf_matches
  · exact literalOf_matches
  · exact matches_advance (agrees_finish fun s s' => by simp only [Expr.bare])
  · exact matches_advance (agrees_finish fun s s' => by simp only [Expr.bare])
  · refine matches_advance ((typeName_agrees same_kin n m).bind fun t u same => ?_)
    refine (argsHere_matches each).bind fun xs ys same' => agrees_finish fun s s' => ?_
    simp only [Expr.bare, Expr.bareAll_eq, same, same']
  · refine matches_advance (each.bind fun x y same => matches_check fun b => ?_)
    cases b with
    | true =>
      refine (moreElems_matches each n m).bind fun xs ys more => ?_
      refine close_matches.bind fun _ _ _ => agrees_finish fun s s' => ?_
      simp only [Expr.bare, Expr.bareAll_eq, List.map_cons, same, more]
    | false =>
      refine close_matches.bind fun _ _ _ => agrees_finish fun s s' => ?_
      simp only [Expr.bare, same]
  · exact .never unexpected_ok

omit each in
theorem member_matches {a : Accessor} (same : x.bare = y.bare) :
    Matches Expr.bare (member start x a) (member start' y a) := by
  refine matches_advance (agrees_span fun s s' => memberName_matches.bind fun w w' same' => ?_)
  obtain rfl : w = w' := same'
  exact .pure (by simp only [Expr.bare, same])

omit each in
theorem afterDot_matches (same : x.bare = y.bare) :
    Matches Expr.bare (afterDot start x) (afterDot start' y) := by
  refine matches_current fun k l p q => ?_
  dsimp only
  split
  · split
    · exact matches_advance (agrees_finish fun s s' => by simp only [Expr.bare, same])
    · exact .never failAt_ok
  · refine agrees_span fun s s' => memberName_matches.bind fun w w' same' => ?_
    obtain rfl : w = w' := same'
    exact .pure (by simp only [Expr.bare, same])

omit each in
theorem castKind_matches : Matches id castKind castKind := by
  have word {r r' : Reader Bool} {kind : CastKind} {next : Reader CastKind} (lead : Matches id r r')
      (rest : Matches id next next) :
      Matches id (r >>= fun b => if b = true then pure kind else next)
        (r' >>= fun b => if b = true then pure kind else next) :=
    lead.bind fun b b' same => by
      obtain rfl : b = b' := same
      cases b with
      | true => exact .pure rfl
      | false => exact rest
  exact word accept_matches (word acceptWord_matches (word acceptWord_matches (.pure rfl)))

theorem suffix?_matches (same : x.bare = y.bare) :
    Matches (Option.map Expr.bare) (suffix? n expr x) (suffix? m expr' y) := by
  have found {r r' : Reader Expr} (h : Matches Expr.bare r r') :
      Matches (Option.map Expr.bare) (some <$> r) (some <$> r') :=
    h.map fun a b same => congrArg some same
  refine matches_current fun k l p q => ?_
  dsimp only
  split
  · refine (args_matches each).bind fun xs ys more => agrees_finish fun s s' => ?_
    simp only [Option.map_some, Expr.bare, Expr.bareAll_eq, same, more]
  · refine matches_advance (each.bind fun i j index => close_matches.bind fun _ _ _ => ?_)
    exact agrees_finish fun s s' => by simp only [Option.map_some, Expr.bare, same, index]
  · exact matches_advance (found (afterDot_matches same))
  · exact found (member_matches same)
  · exact found (member_matches same)
  · exact matches_advance (agrees_finish fun s s' => by simp only [Option.map_some, Expr.bare, same])
  · exact matches_advance (agrees_finish fun s s' => by simp only [Option.map_some, Expr.bare, same])
  · refine matches_advance (castKind_matches.bind fun kind kind' word => ?_)
    obtain rfl : kind = kind' := word
    refine (type_agrees same_kin n m).bind fun t u type => agrees_finish fun s s' => ?_
    simp only [Option.map_some, Expr.bare, same, type]
  · exact .pure rfl

theorem suffixes_matches :
    Matches Expr.bare (primary n expr >>= iterate (suffix? n expr) n)
      (primary m expr' >>= iterate (suffix? m expr') m) :=
  (primary_matches each).bind fun _ _ same =>
    iterate_agrees (fun _ _ same => suffix?_matches each same) n m same

theorem operand_matches (k i : Nat) : Matches Expr.bare (operand n expr k) (operand m expr' i) := by
  induction k generalizing i with
  | zero => exact .never exhausted_ok
  | succ k ih =>
    cases i with
    | zero => exact .spent
    | succ i =>
      refine matches_current fun k l p q => ?_
      dsimp only
      split
      · split
        · refine matches_advance ((ih i).bind fun x y same => agrees_finish fun s s' => ?_)
          simp only [Expr.bare, same]
        · exact suffixes_matches each
      · refine matches_advance ((ih i).bind fun x y same => agrees_finish fun s s' => ?_)
        simp only [Expr.bare, same]
      · exact suffixes_matches each

end

theorem infix?_matches {table : Table} {expr expr' : Int → Reader Expr}
    (each : ∀ least, Matches Expr.bare (expr least) (expr' least)) {least : Int}
    (same : x.bare = y.bare) :
    Matches (Option.map Expr.bare) (infix? table expr start least x)
      (infix? table expr' start' least y) := by
  refine matches_current fun k l p q => ?_
  rw [show bindingOf? table ⟨k, l, q⟩ = bindingOf? table ⟨k, l, p⟩ from rfl]
  split
  · exact .pure rfl
  · next o b found =>
    split
    · exact .pure rfl
    · refine matches_advance ?_
      split
      · refine (each 1).bind fun a a' yes => expect_matches.discard.bind fun _ _ _ => ?_
        refine (each _).bind fun c c' no => agrees_finish fun s s' => ?_
        simp only [Option.map_some, Expr.bare, same, yes, no]
      · refine (each _).bind fun a a' right => agrees_finish fun s s' => ?_
        simp only [Option.map_some, Expr.bare, same, right]
      · refine (each _).bind fun a a' right => agrees_finish fun s s' => ?_
        simp only [Option.map_some, Expr.bare, same, right]

theorem expressionFrom_matches (table : Table) (n m : Nat) (least : Int) :
    Matches Expr.bare (expressionFrom table n least) (expressionFrom table m least) := by
  induction n generalizing m least with
  | zero => exact .never exhausted_ok
  | succ n ih =>
    cases m with
    | zero => exact .spent
    | succ m =>
      refine agrees_pos fun p q => ?_
      refine (operand_matches (ih m 1) n m).bind fun x y same => ?_
      exact iterate_agrees (fun _ _ same => infix?_matches (fun l => ih m l) same) n m same

end Reader

end TastyLang
