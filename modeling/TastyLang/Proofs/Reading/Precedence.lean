import TastyLang.Proofs.Reading.Cursor
import TastyLang.Proofs.Reading.Grouping

/-!
# What is read binds tightly enough

Every tree that the expression reader gives is grouped by the operators' levels. The loop over
binary operators keeps that what stands at the cursor does not bind tightly enough to belong to the
last operand of the tree read so far (`infix?_climbs`).
-/

namespace TastyLang

open Token (Form)

namespace Expr

variable {d : Dialect} (regular : d.Regular)

include regular

theorem leftPrecedence_le {e : Expr} (grouped : e.Grouped d) {o : Operator} {b : Binding}
    (found : d.binding? o = some b) (lt : b.precedence < e.reach d) :
    b.leftPrecedence ≤ e.level d := by
  rcases level_cases grouped with ⟨o', b', -, found', level, reach⟩ | ⟨level, reach⟩
  · have uniform := regular.uniform b (d.mem_of_binding? found) b' (d.mem_of_binding? found')
    rw [reach] at lt
    rw [level]
    unfold Binding.operandPrecedence at lt
    unfold Binding.leftPrecedence
    grind
  · rw [reach] at lt
    unfold Binding.leftPrecedence
    split <;> omega

theorem operandPrecedence_le {o : Operator} {b : Binding} (found : d.binding? o = some b) :
    b.operandPrecedence ≤ leadingLevel := by
  have := (regular.bounds b (d.mem_of_binding? found)).2
  unfold Binding.operandPrecedence
  split <;> omega

end Expr

namespace Reader

variable {α β : Type} {good : β → Prop}

/-- Whatever `r` gives is `good`. -/
def Makes (r : Reader α) (good : α → Prop) : Prop :=
  ∀ ⦃c c' : Cursor⦄ ⦃a : α⦄, r c = .ok (a, c') → good a

theorem Makes.pure {b : β} (h : good b) : Makes (pure b) good := by
  intro c c' a run
  obtain ⟨rfl, -⟩ := pure_ok run
  exact h

theorem Makes.bind {r : Reader α} {f : α → Reader β} {q : α → Prop} (first : Makes r q)
    (next : ∀ a, q a → Makes (f a) good) : Makes (r >>= f) good := by
  intro c c' b run
  obtain ⟨a, c₁, read, run⟩ := bind_ok run
  exact next a (first read) run

theorem Makes.skip {r : Reader α} {f : α → Reader β} (next : ∀ a, Makes (f a) good) :
    Makes (r >>= f) good := by
  intro c c' b run
  obtain ⟨a, c₁, read, run⟩ := bind_ok run
  exact next a run

theorem Makes.map {r : Reader α} {f : α → β} (h : Makes r fun a => good (f a)) :
    Makes (f <$> r) good := by
  intro c c' b run
  obtain ⟨a, read, rfl⟩ := map_ok run
  exact h read

theorem Makes.ite {p : Prop} [Decidable p] {r s : Reader β} (yes : p → Makes r good)
    (no : ¬ p → Makes s good) : Makes (if p then r else s) good := by
  split
  · next h => exact yes h
  · next h => exact no h

theorem exhausted_makes : Makes (exhausted : Reader β) good := fun _ _ _ run =>
  absurd run exhausted_ok

theorem unexpected_makes {x : Expectation} : Makes (unexpected x : Reader β) good :=
  fun _ _ _ run => absurd run unexpected_ok

theorem unclosed_makes {t : Token} : Makes (unclosed t : Reader β) good :=
  fun _ _ _ run => absurd run unclosed_ok

theorem failAt_makes {p : Pos} {cause : ParseError.Cause} : Makes (failAt p cause : Reader β) good :=
  fun _ _ _ run => absurd run failAt_ok

theorem iterate_makes {step : β → Reader (Option β)}
    (once : ∀ x, good x → Makes (step x) fun r => ∀ y, r = some y → good y) (n : Nat) {x : β}
    (h : good x) : Makes (iterate step n x) good := by
  induction n generalizing x with
  | zero => exact exhausted_makes
  | succ n ih =>
    refine .bind (once x h) fun r kept => ?_
    cases r with
    | none => exact .pure h
    | some y => exact ih (kept y rfl)

theorem commaList_makes {opener : Token} {closer : Operator} {item : Reader β}
    (makes : Makes item good) (n : Nat) :
    Makes (commaList opener closer item n) fun xs => ∀ x ∈ xs, good x := by
  induction n with
  | zero => exact exhausted_makes
  | succ n ih =>
    refine .skip fun closed => .ite (fun _ => .skip fun _ => .pure nofun) fun _ => ?_
    refine .skip fun ends => .ite (fun _ => ?_) fun _ => ?_
    · exact .bind (q := fun _ => False) unclosed_makes fun _ impossible => impossible.elim
    refine .bind makes fun x first => .skip fun comma => .ite (fun _ => ?_) fun _ => ?_
    · exact .bind ih fun xs rest => .pure (List.forall_mem_cons.mpr ⟨first, rest⟩)
    · exact .skip fun _ => .pure (List.forall_mem_singleton.mpr first)

end Reader

namespace Expr

variable {d : Dialect}

theorem groupedAll_iff {es : List Expr} : GroupedAll d es ↔ ∀ e ∈ es, e.Grouped d := by
  induction es with
  | nil => simp [GroupedAll]
  | cons e es ih => simp [GroupedAll, ih]

end Expr

namespace Reader

variable {d : Dialect} (plain : d.leadingCasts = false)

/-- What is read as an operand with all that follows it. -/
def Trailing (d : Dialect) (e : Expr) : Prop := e.Grouped d ∧ Expr.trailingLevel ≤ e.level d

/-- What is read as an operand with the operators in front of it. -/
def Leading (d : Dialect) (e : Expr) : Prop := e.Grouped d ∧ Expr.leadingLevel ≤ e.level d

section

variable {n : Nat} {expr : Reader Expr} (makes : Makes expr (Expr.Grouped d))

include makes

theorem args_makes : Makes (args n expr) (Expr.GroupedAll d) := by
  refine .skip fun opener c c' xs run => ?_
  exact Expr.groupedAll_iff.mpr (commaList_makes makes n run)

theorem moreElems_makes (m : Nat) : Makes (moreElems expr m) (Expr.GroupedAll d) := by
  induction m with
  | zero => exact exhausted_makes
  | succ m ih =>
    refine .skip fun comma => .ite (fun _ => .skip fun closed => ?_) fun _ => .pure trivial
    refine .ite (fun _ => .pure trivial) fun _ => ?_
    exact .bind makes fun x first => .bind ih fun xs rest => .pure ⟨first, rest⟩

include plain

theorem primary_makes : Makes (primary n expr) (Trailing d) := by
  have leaf {e : Expr} (grouped : e.Grouped d) (level : e.level d = Expr.primaryLevel) :
      Trailing d e := ⟨grouped, by rw [level]; decide⟩
  refine .skip fun t => ?_
  split
  case h_9 =>
    refine .skip fun _ => .skip fun type => .bind (q := Expr.GroupedAll d) ?_ fun xs grouped => ?_
    · exact .skip fun _ => .ite (fun _ => args_makes makes) fun _ => .pure trivial
    · refine .skip fun s => .pure (leaf grouped ?_)
      rw [Expr.level, plain]
      rfl
  case h_10 =>
    refine .skip fun _ => .bind makes fun first grouped => .skip fun comma => ?_
    refine .ite (fun _ => ?_) fun _ => ?_
    · refine .bind (moreElems_makes makes n) fun more others => .skip fun _ => .skip fun _ => ?_
      exact .pure (leaf ⟨grouped, others⟩ rfl)
    · exact .skip fun _ => .skip fun _ => .pure (leaf grouped rfl)
  case h_11 => exact unexpected_makes
  all_goals exact .skip fun _ => .skip fun _ => .pure (leaf trivial rfl)

omit makes plain in
theorem member_makes {start : Pos} {x : Expr} {accessor : Accessor} (h : Trailing d x) :
    Makes (member start x accessor) (Trailing d) :=
  .skip fun _ => .skip fun _ => .skip fun _ => .pure ⟨⟨h.2, h.1⟩, Int.le_refl _⟩

omit makes plain in
theorem afterDot_makes {start : Pos} {x : Expr} (h : Trailing d x) :
    Makes (afterDot start x) (Trailing d) := by
  have here {e : Expr} (grouped : e.Grouped d) (level : e.level d = Expr.trailingLevel) :
      Trailing d e := ⟨grouped, Int.le_of_eq level.symm⟩
  refine .skip fun t => .ite (fun _ => ?_) fun _ => ?_
  · split
    · exact .skip fun _ => .skip fun _ => .pure (here ⟨h.2, h.1⟩ rfl)
    · exact failAt_makes
  · exact .skip fun _ => .skip fun _ => .pure (here ⟨h.2, h.1⟩ rfl)

theorem suffix?_makes {x : Expr} (h : Trailing d x) :
    Makes (suffix? n expr x) fun r => ∀ y, r = some y → Trailing d y := by
  have one {e : Expr} (t : Trailing d e) : ∀ y, some e = some y → Trailing d y := by
    rintro y ⟨⟩
    exact t
  have here {e : Expr} (grouped : e.Grouped d) (level : e.level d = Expr.trailingLevel) :
      Trailing d e := ⟨grouped, Int.le_of_eq level.symm⟩
  refine .skip fun t => ?_
  split
  · refine .bind (args_makes makes) fun xs all => .skip fun _ => .pure (one (here ?_ rfl))
    exact ⟨h.2, h.1, all⟩
  · refine .skip fun _ => .bind makes fun i grouped => .skip fun _ => .skip fun _ => ?_
    exact .pure (one (here ⟨h.2, h.1, grouped⟩ rfl))
  · exact .skip fun _ => .map fun _ _ _ run => one (afterDot_makes h run)
  · exact .map fun _ _ _ run => one (member_makes h run)
  · exact .map fun _ _ _ run => one (member_makes h run)
  · exact .skip fun _ => .skip fun _ => .pure (one (here ⟨.inl rfl, h.2, h.1⟩ rfl))
  · exact .skip fun _ => .skip fun _ => .pure (one (here ⟨.inr rfl, h.2, h.1⟩ rfl))
  · refine .skip fun _ => .skip fun kind => .skip fun target => .skip fun _ => ?_
    refine .pure (one (here ⟨?_, h.1⟩ ?_))
    · rw [Expr.castLevel, plain]
      exact h.2
    · rw [Expr.level, plain]
      rfl
  · exact .pure (by rintro _ ⟨⟩)

theorem operand_makes (m : Nat) : Makes (operand n expr m) (Leading d) := by
  have chain : Makes (primary n expr >>= iterate (suffix? n expr) n) (Leading d) := by
    refine .bind (primary_makes plain makes) fun x first => ?_
    intro c c' y run
    obtain ⟨grouped, level⟩ :=
      iterate_makes (fun x h => suffix?_makes plain makes h) n first run
    exact ⟨grouped, Int.le_trans (by decide) level⟩
  induction m with
  | zero => exact exhausted_makes
  | succ m ih =>
    refine .skip fun t => ?_
    split
    · refine .ite (fun leading => ?_) fun _ => chain
      refine .skip fun _ => .bind ih fun x h => .skip fun _ => .pure ?_
      exact ⟨⟨leading, h.2, h.1⟩, Int.le_refl _⟩
    · refine .skip fun _ => .bind ih fun x h => .skip fun _ => .pure ?_
      exact ⟨⟨h.2, h.1⟩, Int.le_refl _⟩
    · exact chain

end

/-! ### Binary operators -/

/-- No operator at the cursor binds at least as tightly as `least`. -/
def Below (d : Dialect) (least : Int) (c : Cursor) : Prop :=
  ∀ o b, c.current.kind = .op o → d.binding? o = some b → b.precedence < least

/-- The reader `expr` gives trees that bind at least as tightly as asked, and stops where no
operator does. -/
def Climbs (d : Dialect) (expr : Int → Reader Expr) : Prop :=
  ∀ ⦃least : Int⦄, least ≤ Expr.leadingLevel → ∀ ⦃c c' e⦄, expr least c = .ok (e, c') →
    e.Grouped d ∧ least ≤ e.level d ∧ Below d least c'

/-- A tree that the loop over operators holds at a cursor. -/
structure Climbed (d : Dialect) (least : Int) (e : Expr) (c : Cursor) : Prop where
  grouped : e.Grouped d
  level : least ≤ e.level d
  next : Below d (e.reach d) c

section

variable (regular : d.Regular) {expr : Int → Reader Expr} (climbs : Climbs d expr)

include regular climbs

theorem infix?_climbs {start : Pos} {least : Int} {x : Expr} {c c' : Cursor} {r : Option Expr}
    (here : Climbed d least x c) (run : infix? d.table expr start least x c = .ok (r, c')) :
    (r = none ∧ c = c' ∧ Below d least c) ∨ ∃ y, r = some y ∧ Climbed d least y c' := by
  obtain ⟨t, _, read, run⟩ := bind_ok run
  obtain ⟨rfl, rfl⟩ := current_ok read
  cases binary : bindingOf? d.table c.current with
  | none =>
    simp only [binary] at run
    obtain ⟨rfl, rfl⟩ := pure_ok run
    refine .inl ⟨rfl, rfl, fun o b kind found => ?_⟩
    cases binary.symm.trans (d.bindingOf?_eq_some.mpr ⟨kind, found⟩)
  | some p =>
    obtain ⟨o, b⟩ := p
    obtain ⟨kind, found⟩ := d.bindingOf?_eq_some.mp binary
    simp only [binary] at run
    split at run
    · next below =>
      obtain ⟨rfl, rfl⟩ := pure_ok run
      refine .inl ⟨rfl, rfl, fun o' b' kind' found' => ?_⟩
      cases kind.symm.trans kind'
      cases found.symm.trans found'
      exact below
    · next reached =>
      have left := Expr.leftPrecedence_le regular here.grouped found (here.next o b kind found)
      have level : least ≤ d.precedence o := by
        rw [d.precedence_eq found]
        omega
      have reach := d.operandPrecedence_eq found
      have right {c c' : Cursor} {e : Expr} (read : expr b.operandPrecedence c = .ok (e, c')) :=
        climbs (Expr.operandPrecedence_le regular found) read
      obtain ⟨_, c₁, -, run⟩ := bind_ok run
      refine .inr ?_
      split at run
      · obtain ⟨yes, c₂, read, run⟩ := bind_ok run
        obtain ⟨yesGrouped, -⟩ := climbs (by decide) read
        obtain ⟨_, c₃, -, run⟩ := bind_ok run
        obtain ⟨no, c₄, read, run⟩ := bind_ok run
        obtain ⟨grouped, tight, next⟩ := right read
        obtain ⟨rfl, rfl⟩ := finish_ok run
        refine ⟨_, rfl, ⟨⟨b, found, left, tight⟩, here.grouped, yesGrouped, grouped⟩, level, ?_⟩
        rw [Expr.reach, Expr.operator?, Option.elim_some, reach]
        exact next
      · obtain ⟨r, c₂, read, run⟩ := bind_ok run
        obtain ⟨grouped, tight, next⟩ := right read
        obtain ⟨rfl, rfl⟩ := finish_ok run
        refine ⟨_, rfl, ⟨⟨b, found, left, tight⟩, here.grouped, grouped⟩, level, ?_⟩
        rw [Expr.reach, Expr.operator?, Option.elim_some, reach]
        exact next
      · next notTernary notRange =>
        obtain ⟨r, c₂, read, run⟩ := bind_ok run
        obtain ⟨grouped, tight, next⟩ := right read
        obtain ⟨rfl, rfl⟩ := finish_ok run
        refine ⟨_, rfl, ⟨notTernary, notRange, ⟨b, found, left, tight⟩, here.grouped, grouped⟩,
          level, ?_⟩
        rw [Expr.reach, Expr.operator?, Option.elim_some, reach]
        exact next

theorem infixes_climb {start : Pos} {least : Int} {n : Nat} {x e : Expr} {c c' : Cursor}
    (here : Climbed d least x c)
    (run : iterate (infix? d.table expr start least) n x c = .ok (e, c')) :
    e.Grouped d ∧ least ≤ e.level d ∧ Below d least c' := by
  induction n generalizing x c with
  | zero => exact absurd run exhausted_ok
  | succ n ih =>
    obtain ⟨r, c₁, read, run⟩ := bind_ok run
    rcases infix?_climbs regular climbs here read with ⟨rfl, rfl, below⟩ | ⟨y, rfl, there⟩
    · obtain ⟨rfl, rfl⟩ := pure_ok run
      exact ⟨here.grouped, here.level, below⟩
    · exact ih there run

omit climbs in
include plain in
theorem expressionFrom_climbs (n : Nat) : Climbs d (expressionFrom d.table n) := by
  induction n with
  | zero => exact fun _ _ _ _ _ run => absurd run exhausted_ok
  | succ n ih =>
    intro least small c c' e run
    obtain ⟨start, _, read, run⟩ := bind_ok run
    obtain ⟨rfl, rfl⟩ := pos_ok read
    obtain ⟨x, c₁, read, run⟩ := bind_ok run
    have nested : Makes (expressionFrom d.table n 1) (Expr.Grouped d) :=
      fun _ _ _ run => (ih (by decide) run).1
    obtain ⟨grouped, level⟩ := operand_makes plain nested n read
    refine infixes_climb regular ih ⟨grouped, Int.le_trans small level, fun o b _ found => ?_⟩ run
    have bound := (regular.bounds b (d.mem_of_binding? found)).2
    rcases Expr.level_cases grouped with ⟨o', b', -, found', level', -⟩ | ⟨-, reach⟩
    · have := (regular.bounds b' (d.mem_of_binding? found')).2
      omega
    · rw [reach]
      exact bound

end

end Reader

theorem Expr.read_grouped {src : String} {e : Expr} (h : Expr.read .default src = .ok e) :
    e.Grouped .source := by
  obtain ⟨n, c, c', -, run⟩ := Reader.run_ok h
  obtain ⟨x, c₁, read, run⟩ := bind_ok run
  obtain ⟨_, c₂, -, run⟩ := bind_ok run
  obtain ⟨rfl, -⟩ := pure_ok run
  exact (Reader.expressionFrom_climbs rfl Dialect.source_regular n (by decide) read).1

end TastyLang
