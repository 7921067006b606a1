import TastyLang.Emission.Statements
import TastyLang.Proofs.Emission.Grouping
import TastyLang.Proofs.Evaluation
import TastyLang.Reading.Statements

/-!
# The bounds of counting loops

The condition of a counting loop is written flat: the variable, a comparison, and the bound. C++
compares the variable with the first operand of the bound whose operators do not bind tighter than
the comparison, and applies these operators to the result (`graft`). So the variable is compared
with the whole bound if and only if the bound binds tighter than a comparison
(`condition_compares_bound_iff`).
-/

namespace TastyLang

open Token (Form)

namespace Emission

open TastyLang.Expr (leadingLevel)

/-! ### Loops -/

/-- How a counting variable compares with its last value. -/
def comparison (kind : CountKind) : Operator :=
  match kind.ascending, kind.inclusive with
  | true, false => .less
  | true, true => .lessEqual
  | false, false => .greater
  | false, true => .greaterEqual

theorem compareText_eq (kind : CountKind) : compareText kind = (comparison kind).symbol := by
  cases kind <;> decide

/-- The variable of a counting loop, its comparison and its bound. -/
def counter? : Stmt → Option (String × Operator × Expr)
  | .count _ kind name _ high _ _ => some (name, comparison kind, high)
  | .each _ name _ (.range _ _ high) _ => some (name, .less, high)
  | _ => none

variable (info : Info)

/-- What is written in front of the body of a loop that counts or goes over something. -/
def loopHead? : Stmt → Option (Except EmitError String)
  | .count span kind name low high step _ => some (countHead info span kind name low high step)
  | .each span name storage items _ => some (eachHead info span name storage items)
  | _ => none

/-- The condition of a counting loop, with the text of its bound. -/
def conditionText (name : String) (o : Operator) (bound : String) : String :=
  name ++ " " ++ o.symbol ++ " " ++ bound

variable {info}

theorem head_has_condition {s : Stmt} {name : String} {o : Operator} {bound : Expr}
    (loop : counter? s = some (name, o, bound)) {head : String}
    (written : loopHead? info s = some (.ok head)) {text : String}
    (done : expr info bound = .ok text) :
    ∃ before after, head = before ++ "; " ++ conditionText name o text ++ "; " ++ after := by
  cases s with
  | count span kind x low high step body =>
    cases loop
    obtain ⟨next, -, written⟩ := except_bind_ok (Option.some.inj written)
    obtain ⟨l, -, written⟩ := except_bind_ok written
    obtain ⟨h, done', written⟩ := except_bind_ok written
    cases done.symm.trans done'
    obtain rfl := Except.ok.inj written
    refine ⟨"for (" ++ counterType info span ++ " " ++ name ++ " = " ++ l, next ++ ") ", ?_⟩
    simp only [conditionText, compareText_eq, String.append_assoc]
  | each span x storage items body =>
    cases items with
    | range r low high =>
      cases loop
      obtain ⟨l, -, written⟩ := except_bind_ok (Option.some.inj written)
      obtain ⟨h, done', written⟩ := except_bind_ok written
      cases done.symm.trans done'
      obtain rfl := Except.ok.inj written
      refine ⟨"for (" ++ counterType info span ++ " " ++ name ++ " = " ++ l, name ++ "++) ", ?_⟩
      have less : " < " = " " ++ Operator.less.symbol ++ " " := by decide
      simp only [conditionText, less, String.append_assoc, -String.reduceAppend]
    | _ => cases loop
  | _ => cases loop

/-! ### What C++ compares -/

def comparisons : List Operator := [.less, .lessEqual, .greater, .greaterEqual]

theorem comparison_mem (kind : CountKind) : comparison kind ∈ comparisons := by
  cases kind <;> decide

theorem counter?_mem {s : Stmt} {name : String} {o : Operator} {bound : Expr}
    (loop : counter? s = some (name, o, bound)) : o ∈ comparisons := by
  cases s with
  | count span kind x low high step body =>
    cases loop
    exact comparison_mem kind
  | each span x storage items body =>
    cases items with
    | range r low high =>
      cases loop
      decide
    | _ => cases loop
  | _ => cases loop

/-- The level of the comparisons. -/
abbrev comparisonLevel : Int := 10

theorem comparison_binding : ∀ o ∈ comparisons, o ≠ .question ∧ o ≠ .range ∧
    Cpp.dialect.binding? o = some ⟨o.symbol, comparisonLevel, false⟩ := by
  decide

theorem comparison_level : ∀ o ∈ comparisons, Dialect.source.precedence o = comparisonLevel := by
  decide

/-- The comparison of `i` with what stands behind it. Operators of `b` that bind no tighter than the
comparison are applied to its result. -/
def graft (o : Operator) (i : Expr) : Expr → Expr
  | .binary s o' l r =>
    if comparisonLevel < Cpp.dialect.precedence o' then .binary {} o i (.binary s o' l r)
    else .binary s o' (graft o i l) r
  | .ternary s c y n => .ternary s (graft o i c) y n
  | b => .binary {} o i b

variable {o : Operator} {i b : Expr}

theorem graft_forms (o : Operator) (i b : Expr) :
    (graft o i b).forms = i.forms ++ .op o :: b.forms := by
  fun_induction graft o i b with
  | case1 | case4 => rfl
  | case2 s o' l r loose ih => rw [Expr.forms, ih, Expr.forms, List.append_assoc, List.cons_append]
  | case3 s c y n ih => rw [Expr.forms, ih, Expr.forms, List.append_assoc, List.cons_append]

theorem graft_eq (h : comparisonLevel < b.level Cpp.dialect) : graft o i b = .binary {} o i b := by
  cases b with
  | binary s o' l r => exact if_pos h
  | ternary s c y n => exact absurd h (by rw [Expr.level]; decide)
  | _ => rfl

theorem loose_cases (grouped : b.Grouped Cpp.dialect)
    (loose : ¬ comparisonLevel < b.level Cpp.dialect) :
    (∃ s o l r, b = .binary s o l r) ∨ ∃ s c y n, b = .ternary s c y n := by
  rcases Expr.level_cases grouped with ⟨o, bound, top, found, -⟩ | ⟨level, -⟩
  · cases b with
    | binary s o l r => exact .inl ⟨s, o, l, r, rfl⟩
    | ternary s c y n => exact .inr ⟨s, c, y, n, rfl⟩
    | range s l r =>
      have none : Cpp.dialect.binding? .range = none := by decide
      cases top
      cases none.symm.trans found
    | _ => cases top
  · exact absurd (Int.lt_of_lt_of_le (by decide) level) loose

theorem left_le_comparison {o : Operator} {b : Binding} (found : Cpp.dialect.binding? o = some b)
    (h : ¬ comparisonLevel < Cpp.dialect.precedence o) : b.leftPrecedence ≤ comparisonLevel := by
  have all : ∀ b ∈ Cpp.operators, b.precedence ≤ comparisonLevel →
      b.leftPrecedence ≤ comparisonLevel := by
    decide
  rw [Dialect.precedence_eq found] at h
  exact all b (Dialect.mem_of_binding? found) (Int.not_lt.mp h)

theorem graft_legible (h : o ∈ comparisons) (first : i.Legible Cpp.dialect)
    (level : leadingLevel ≤ i.level Cpp.dialect) (bound : b.Legible Cpp.dialect) :
    (graft o i b).Legible Cpp.dialect ∧ ∀ p ≤ comparisonLevel, p ≤ b.level Cpp.dialect →
      p ≤ (graft o i b).level Cpp.dialect := by
  obtain ⟨notTernary, notRange, found⟩ := comparison_binding o h
  have whole {b : Expr} (bound : b.Legible Cpp.dialect)
      (tight : comparisonLevel < b.level Cpp.dialect) :
      (Expr.binary {} o i b).Legible Cpp.dialect ∧ ∀ p ≤ comparisonLevel,
        p ≤ b.level Cpp.dialect → p ≤ (Expr.binary {} o i b).level Cpp.dialect := by
    refine ⟨⟨⟨first.written, bound.written⟩, notTernary, notRange, ⟨_, found, ?_, tight⟩,
      first.grouped, bound.grouped⟩, fun p le _ => ?_⟩
    · show comparisonLevel ≤ i.level Cpp.dialect
      exact Int.le_trans (by decide) level
    · rw [Expr.level, Dialect.precedence_eq found]
      exact le
  fun_induction graft o i b with
  | case1 s o' l r tight => exact whole bound tight
  | case2 s o' l r loose ih =>
    obtain ⟨⟨writtenLeft, writtenRight⟩, notTernary', notRange', ⟨b', found', left, right⟩,
      groupedLeft, groupedRight⟩ := bound
    obtain ⟨legible, levels⟩ := ih ⟨writtenLeft, groupedLeft⟩
    refine ⟨⟨⟨legible.written, writtenRight⟩, notTernary', notRange', ⟨b', found', ?_, right⟩,
      legible.grouped, groupedRight⟩, fun p _ le => le⟩
    exact levels _ (left_le_comparison found' loose) left
  | case3 s c y n ih =>
    obtain ⟨⟨writtenCond, writtenRest⟩, ⟨b', found', left, right⟩, groupedCond, groupedRest⟩ := bound
    obtain ⟨legible, levels⟩ := ih ⟨writtenCond, groupedCond⟩
    refine ⟨⟨⟨legible.written, writtenRest⟩, ⟨b', found', ?_, right⟩, legible.grouped, groupedRest⟩,
      fun p _ le => le⟩
    exact levels _ (left_le_comparison found' (by decide)) left
  | case4 b notBinary notTernary =>
    refine whole bound (Decidable.byContradiction fun loose => ?_)
    rcases loose_cases bound.grouped loose with ⟨s, o, l, r, rfl⟩ | ⟨s, c, y, n, rfl⟩
    · exact notBinary s o l r rfl
    · exact notTernary s c y n rfl

theorem leftOperators_bare (e : Expr) : Reader.leftOperators e.bare = Reader.leftOperators e := by
  fun_induction Reader.leftOperators e with
  | case1 s o l r ih | case2 s l r ih | case3 s c y n ih =>
    rw [Expr.bare, Reader.leftOperators, ih]
  | case4 e notBinary notRange notTernary =>
    cases e with
    | binary s o l r => exact absurd rfl (notBinary s o l r)
    | range s l r => exact absurd rfl (notRange s l r)
    | ternary s c y n => exact absurd rfl (notTernary s c y n)
    | _ => rfl

theorem leftOperators_graft (o : Operator) (i b : Expr) : 0 < Reader.leftOperators (graft o i b) := by
  fun_induction graft o i b with
  | _ => exact Nat.succ_pos _

theorem graft_ne {name : String} (loose : ¬ comparisonLevel < b.level Cpp.dialect)
    (grouped : b.Grouped Cpp.dialect) :
    (graft o (.ident {} name) b).bare ≠ (Expr.binary {} o (.ident {} name) b).bare := by
  intro same
  have count := congrArg Reader.leftOperators same
  rw [leftOperators_bare, leftOperators_bare] at count
  rcases loose_cases grouped loose with ⟨s, o', l, r, rfl⟩ | ⟨s, c, y, n, rfl⟩
  · have inner := leftOperators_graft o (.ident {} name) l
    rw [graft, if_neg (show ¬ comparisonLevel < Cpp.dialect.precedence o' from loose)] at count
    simp only [Reader.leftOperators] at count
    omega
  · have inner := leftOperators_graft o (.ident {} name) c
    rw [graft] at count
    simp only [Reader.leftOperators] at count
    omega

/-! ### Bounds that are read -/

open Reader (Makes) in
theorem expression_makes (n : Nat) :
    Makes (Reader.expression .default n) (Expr.Grouped .source) := fun _ _ _ run =>
  (Reader.expressionFrom_climbs rfl Dialect.source_regular n (by decide) run).1

/-- The bound of a loop that is read is grouped by the levels of its operators. -/
def BoundGrouped (s : Stmt) : Prop :=
  ∀ name o bound, counter? s = some (name, o, bound) → bound.Grouped .source

theorem counting_makes {n : Nat} {stmt : Bool → Reader Stmt} {t : Token} {kind : CountKind} :
    Reader.Makes (Reader.counting .default n stmt t kind) BoundGrouped := by
  refine .skip fun _ => .skip fun x => .skip fun _ => .skip fun low => .skip fun _ => ?_
  refine .bind (expression_makes n) fun high grouped => .skip fun step => .skip fun body => ?_
  refine .skip fun span => .pure ?_
  rintro name o bound ⟨⟩
  exact grouped

theorem boundGrouped_of_none {s : Stmt} (h : counter? s = none) : BoundGrouped s := by
  intro name o bound loop
  cases h.symm.trans loop

theorem branch_makes {n k : Nat} {stmt : Bool → Reader Stmt} :
    Reader.Makes (Reader.branch .default n stmt k) BoundGrouped := by
  cases k with
  | zero => exact Reader.exhausted_makes
  | succ k =>
    refine .skip fun _ => .skip fun _ => .skip fun _ => .skip fun _ => .skip fun _ => ?_
    exact .skip fun _ => .pure (boundGrouped_of_none rfl)

theorem simple_makes {n : Nat} {tail : Bool} :
    Reader.Makes (Reader.simple .default n tail) BoundGrouped := by
  have none {s : Stmt} (h : counter? s = none) := boundGrouped_of_none h
  refine .skip fun t => .ite (fun _ => ?_) fun _ => ?_
  · refine .skip fun _ => .skip fun _ => .ite (fun _ => ?_) fun _ => .skip fun _ => ?_
    · exact .skip fun _ => .skip fun _ => .pure (none rfl)
    · exact .skip fun _ => .skip fun _ => .pure (none rfl)
  · refine .skip fun x => ?_
    cases tail with
    | true =>
      refine .skip fun closed => .ite (fun _ => ?_) fun _ => ?_
      · exact .skip fun _ => .pure (none rfl)
      · exact .skip fun _ => .skip fun _ => .pure (none rfl)
    | false =>
      refine .skip fun closed => .ite (fun impossible => nomatch impossible) fun _ => ?_
      exact .skip fun _ => .skip fun _ => .pure (none rfl)

theorem stmt_makes {n : Nat} {tail : Bool} :
    Reader.Makes (Reader.stmt .default n tail) BoundGrouped := by
  have none {s : Stmt} (h : counter? s = none) := boundGrouped_of_none h
  cases n with
  | zero => exact Reader.exhausted_makes
  | succ n =>
    refine .skip fun t => ?_
    split
    · exact .map fun _ _ _ _ => none rfl
    · exact branch_makes
    · exact branch_makes
    · exact .skip fun _ => .skip fun _ => .skip fun _ => .skip fun _ => .pure (none rfl)
    · exact .skip fun _ => .skip fun _ => .skip fun _ => .skip fun _ => .pure (none rfl)
    · exact .skip fun _ => .skip fun _ => .skip fun _ => .pure (none rfl)
    · exact counting_makes
    · exact counting_makes
    · exact counting_makes
    · exact counting_makes
    · refine .skip fun _ => .skip fun _ => .skip fun _ => .skip fun _ => ?_
      refine .bind (expression_makes n) fun items grouped => .skip fun _ => .skip fun _ => .pure ?_
      intro name o bound loop
      cases items with
      | range r low high =>
        cases loop
        exact grouped.2.2
      | _ => cases loop
    · exact .skip fun _ => .skip fun _ => .skip fun _ => .skip fun _ => .pure (none rfl)
    · exact .skip fun _ => .skip fun _ => .skip fun _ => .pure (none rfl)
    · exact .skip fun _ => .skip fun _ => .skip fun _ => .pure (none rfl)
    · exact .skip fun _ => .skip fun _ => .pure (none rfl)
    · exact simple_makes

/-! ### Conditions -/

theorem tight_iff {e : Expr} (grouped : e.Grouped .source) (h : keeps info e = true) :
    comparisonLevel < (tree info e).level Cpp.dialect ↔ comparisonLevel < e.level .source := by
  rcases Expr.level_cases grouped with ⟨o, b, top, -⟩ | ⟨level, reach⟩
  · cases e with
    | binary s o l r =>
      rw [tree, Expr.level, Expr.level, Dialect.precedence, Dialect.precedence,
        binding?_eq grouped.1 grouped.2.1]
    | ternary s c y n =>
      obtain ⟨source, target⟩ := @level_ternary info (.ternary s c y n) rfl
      rw [source, target]
      decide
    | range => cases h
    | _ => cases top
  · have front : leadingLevel ≤ (tree info e).level Cpp.dialect :=
      leading_le_level (operator?_eq_none grouped level)
    exact iff_of_true (Int.lt_of_lt_of_le (by decide) front) (Int.lt_of_lt_of_le (by decide) level)

theorem condition_legible {bound : Expr} (kept : Kept info bound) (name : String)
    (h : o ∈ comparisons) : (graft o (.ident {} name) (tree info bound)).Legible Cpp.dialect :=
  (graft_legible h (i := .ident {} name) ⟨trivial, trivial⟩ (by rw [Expr.level]; decide)
    kept.legible).1

theorem condition_reads {bound : Expr} (kept : Kept info bound) {name : String}
    (named : Cpp.isName name = true) (h : o ∈ comparisons) {text : String}
    (spelt : Cpp.Spells text.toList (tree info bound).forms) :
    Cpp.Reads (conditionText name o text) (graft o (.ident {} name) (tree info bound)) := by
  have word : Cpp.Spells name.toList [⟨.ident, name⟩] := .word (f := ⟨.ident, name⟩) fun _ => named
  refine ⟨?_, Cpp.read_forms (condition_legible kept name h)⟩
  rw [graft_forms, List.append_cons]
  exact (word.spaced (.operator o)).spaced spelt

/-- C++ compares the variable of a loop with its whole bound if and only if the bound binds tighter
than a comparison. Other bounds lose their first operand to the comparison. -/
theorem condition_compares_bound_iff {n : Nat} {tail : Bool} {c c' : Cursor} {s : Stmt}
    (read : Reader.stmt .default n tail c = .ok (s, c')) (info : Info) {name : String}
    {o : Operator} {bound : Expr} (loop : counter? s = some (name, o, bound))
    (named : Cpp.isName name = true) (h : keeps info bound = true) :
    ∃ text, expr info bound = .ok text ∧
      (∀ head, loopHead? info s = some (.ok head) →
        ∃ before after, head = before ++ "; " ++ conditionText name o text ++ "; " ++ after) ∧
      Cpp.Reads (conditionText name o text) (graft o (.ident {} name) (tree info bound)) ∧
      (Cpp.Reads (conditionText name o text) (.binary {} o (.ident {} name) (tree info bound)) ↔
        Dialect.source.precedence o < bound.level .source) := by
  have grouped := stmt_makes read name o bound loop
  have kept := kept_of_keeps grouped h
  have compares := counter?_mem loop
  obtain ⟨text, done, spelt⟩ := kept.spelt
  have reads := condition_reads kept named compares spelt
  refine ⟨text, done, fun head written => head_has_condition loop written done, reads, ?_⟩
  rw [comparison_level o compares, ← tight_iff grouped h]
  constructor
  · intro whole
    have same := whole.bare_eq (condition_legible kept name compares) (graft_forms _ _ _).symm
    exact Decidable.byContradiction fun loose => graft_ne loose kept.legible.grouped same.symm
  · intro tight
    rw [graft_eq tight] at reads
    exact reads

theorem condition_compares_bound_iff_of_sum :
    ∃ s name bound text, Reader.run "decto i from n to k * 2 + 1 { }"
        (fun n => Reader.stmt .default n false) = .ok s ∧
      counter? s = some (name, .greaterEqual, bound) ∧ expr {} bound = .ok text ∧
      Cpp.Reads (conditionText name .greaterEqual text)
        (.binary {} .greaterEqual (.ident {} name) (tree {} bound)) := by
  have found : (Reader.run "decto i from n to k * 2 + 1 { }"
      (fun n => Reader.stmt .default n false)).toOption.any (fun s => (counter? s).any
        fun (name, o, bound) => o == .greaterEqual && Cpp.isName name && keeps {} bound &&
          decide (Dialect.source.precedence .greaterEqual < bound.level .source)) = true := by
    rw [Reader.run_ofList]
    decide +kernel
  obtain ⟨s, run, here⟩ := (Option.any_eq_true _ _).mp found
  obtain ⟨⟨name, o, bound⟩, loop, here⟩ := (Option.any_eq_true _ _).mp here
  simp only [Bool.and_eq_true, beq_iff_eq, decide_eq_true_eq] at here
  obtain ⟨⟨⟨rfl, named⟩, keeps⟩, tight⟩ := here
  have run := toOption_eq_some run
  obtain ⟨n, c, c', -, read⟩ := Reader.run_ok run
  obtain ⟨text, done, -, -, whole⟩ := condition_compares_bound_iff read {} loop named keeps
  exact ⟨s, name, bound, text, run, loop, done, whole.mpr tight⟩

/-- The variable of a loop is compared with the first operand of a conjunction. -/
theorem comparison_splits_bound :
    ∃ s bound info, Reader.run "inc i from 0 to b && c { g(); }"
        (fun n => Reader.stmt .default n false) = .ok s ∧
      counter? s = some ("i", .less, bound) ∧ infoOf? bound = some info ∧
      loopHead? info s = some (.ok "for (int i = 0; i < b && c; i++) ") ∧
      Cpp.Reads "i < b && c" (.binary {} .logicalAnd
        (.binary {} .less (.ident {} "i") (.ident {} "b")) (.ident {} "c")) ∧
      ¬ Cpp.Reads "i < b && c" (.binary {} .less (.ident {} "i") (tree info bound)) := by
  let i : Expr := .ident {} "i"
  let b : Expr := .ident {} "b"
  let c : Expr := .ident {} "c"
  let other : Expr := .binary {} .logicalAnd (.binary {} .less i b) c
  have legible : other.Legible Cpp.dialect := by
    constructor
    · exact ⟨⟨trivial, trivial⟩, trivial⟩
    · simp only [other, i, b, c, Expr.Grouped]
      decide
  have spelt : Cpp.Spells "i < b && c".toList other.forms := by
    have word (name : String) (named : Cpp.isName name = true) :
        Cpp.Spells name.toList (Expr.ident {} name).forms :=
      .word (f := ⟨.ident, name⟩) fun _ => named
    have compared := ((word "i" (by decide)).spaced (.operator .less)).spaced (word "b" (by decide))
    have whole := (compared.spaced (.operator .logicalAnd)).spaced (word "c" (by decide))
    have text : "i < b && c" = "i" ++ " " ++ Operator.less.symbol ++ " " ++ "b" ++ " " ++
        Operator.logicalAnd.symbol ++ " " ++ "c" := by
      decide
    rw [text]
    exact whole
  have found : (Reader.run "inc i from 0 to b && c { g(); }"
      (fun n => Reader.stmt .default n false)).toOption.any (fun s => (counter? s).any
        fun q => (infoOf? q.2.2).any fun info => q.1 == "i" && q.2.1 == .less &&
          ((loopHead? info s).bind (·.toOption) == some "for (int i = 0; i < b && c; i++) ") &&
          (tree info q.2.2).forms == b.forms ++ .op .logicalAnd :: c.forms) = true := by
    rw [Reader.run_ofList]
    decide +kernel
  obtain ⟨s, run, here⟩ := (Option.any_eq_true _ _).mp found
  obtain ⟨⟨name, o, bound⟩, loop, here⟩ := (Option.any_eq_true _ _).mp here
  obtain ⟨info, resolved, here⟩ := (Option.any_eq_true _ _).mp here
  simp only [Bool.and_eq_true, beq_iff_eq] at here
  obtain ⟨⟨⟨rfl, rfl⟩, head⟩, forms⟩ := here
  obtain ⟨written, head, done⟩ := Option.bind_eq_some_iff.mp head
  refine ⟨s, bound, info, toOption_eq_some run, loop, resolved,
    head.trans (congrArg some (toOption_eq_some done)), ⟨spelt, Cpp.read_forms legible⟩, ?_⟩
  intro whole
  have same : (Expr.binary {} .less i (tree info bound)).bare = other.bare :=
    whole.bare_eq legible (by rw [Expr.forms, forms]; rfl)
  have level := congrArg (Expr.level Cpp.dialect) same
  rw [Expr.level_bare, Expr.level_bare, Expr.level] at level
  exact absurd level (by decide)

end Emission

end TastyLang
