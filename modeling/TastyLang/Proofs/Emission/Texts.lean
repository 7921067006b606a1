import Mathlib
import TastyLang.Emission.Unit
import TastyLang.Proofs.Emission.Printer
import TastyLang.Proofs.Outcome
import TastyLang.Proofs.Token.Order
import TastyLang.Proofs.Resolution.Expressions

/-!
# How many lines texts take

The C++ text of an expression ends no more lines than the literals in it do, as long as the names
take one line each. The same for the texts that are built from expressions: variables, the heads of
loops and functions, and `return`.
-/

namespace TastyLang

open Text

mutual

theorem TypeExpr.Flat.text : {t : TypeExpr} → t.Flat → OneLine t.text
  | .named _ name [] _, flat => by
    simp +ground [OneLine, TypeExpr.text, breaks_repeated, flat.1]
  | .named _ name (arg :: args) _, flat => by
    have list : OneLine (TypeExpr.textList (arg :: args)) := TypeExpr.FlatAll.text flat.2
    simp +ground [OneLine, TypeExpr.text, breaks_repeated, flat.1, list]
  | .tuple _ elems _, flat => by
    have list : OneLine (TypeExpr.textList elems) := TypeExpr.FlatAll.text flat
    simp +ground [OneLine, TypeExpr.text, breaks_repeated, list]
  | .func _ params none _, flat => by
    have list : OneLine (TypeExpr.textList params) := TypeExpr.FlatAll.text flat
    simp +ground [OneLine, TypeExpr.text, breaks_repeated, list]
  | .func _ params (some result) _, flat => by
    have list : OneLine (TypeExpr.textList params) := TypeExpr.FlatAll.text flat.1
    have last : OneLine result.text := TypeExpr.Flat.text flat.2
    simp +ground [OneLine, TypeExpr.text, breaks_repeated, list, last]

theorem TypeExpr.FlatAll.text : {ts : List TypeExpr} → TypeExpr.FlatAll ts →
    OneLine (TypeExpr.textList ts)
  | [], _ => rfl
  | [t], flat => TypeExpr.Flat.text flat.1
  | t :: u :: ts, flat => by
    have rest : OneLine (TypeExpr.textList (u :: ts)) := TypeExpr.FlatAll.text flat.2
    have first : OneLine t.text := TypeExpr.Flat.text flat.1
    simp +ground [OneLine, TypeExpr.textList, first, rest]

end

namespace Info.Spelt

variable {info : Info} (spelt : info.Spelt OneLine)

include spelt

theorem typeOfExpr {t : TypeExpr} (flat : t.Flat) : (info.typeOfExpr t).Spelt OneLine := by
  unfold Info.typeOfExpr
  rw [Std.TreeMap.getD_eq_getD_getElem?]
  cases found : info.typeExprs[t.span]? with
  | none => exact flat.text
  | some type => exact spelt.typeExprs _ _ found

theorem result (f : FuncDecl) : (info.result f).Spelt OneLine := by
  unfold Info.result
  rw [Std.TreeMap.getD_eq_getD_getElem?]
  cases found : info.results[f.info.span]? with
  | none => trivial
  | some type => exact spelt.results _ _ found

theorem extensionFor? {f : FuncDecl} {e : Extension} (h : info.extensionFor? f = some e) :
    e.Spelt OneLine :=
  spelt.extensions e (List.mem_reverse.mp (List.mem_of_find?_eq_some h))

end Info.Spelt

namespace Emission

theorem oneLine_typeName {t : Ty} (spelt : t.Spelt OneLine) : OneLine (typeName t) := by
  unfold typeName
  split
  · rfl
  · exact spelt.cpp

theorem breaks_render (a : Access) (receiver member : String) :
    breaks (a.render receiver member) = breaks receiver + breaks member := by
  cases a with
  | dot => simp +ground [Access.render]
  | scope => simp +ground [Access.render]
  | arrow d =>
    unfold Access.render
    dsimp only
    split
    · simp +ground
    · simp +ground [breaks_repeated]

theorem breaks_receiverText (simple : Bool) (depth : Nat) (x : String) :
    breaks (receiverText simple depth x) = breaks x := by
  unfold receiverText
  split
  · rfl
  · cases simple <;> simp +ground [breaks_repeated]

theorem breaks_castText (kind : CastKind) (type x : String) :
    breaks (castText kind type x) = breaks type + breaks x := by
  unfold castText
  cases kind <;> simp +ground

theorem oneLine_toString (n : Nat) : OneLine (toString n) := by
  rw [OneLine, breaks_eq_zero, Nat.toString_eq_repr, Nat.toList_repr]
  intro member
  have digit := Nat.isDigit_of_mem_toDigits (b := 10) (by decide) (by decide) member
  exact absurd digit (by decide)

theorem breaks_literal (kind : LiteralKind) (value : String) :
    breaks (if kind == .null then "nullptr" else value) ≤ breaks value := by
  split
  · exact Nat.zero_le _
  · exact Nat.le_refl _

variable {info : Info} {s : String} {name : String}

theorem memberCall_breaks (spelt : info.Spelt OneLine) {span mspan : Span} {x : Expr}
    {accessor : Accessor} {args : List Expr}
    (callee : ∀ {t}, expr info (.member mspan x name accessor) = .ok t → breaks t ≤ x.breaks)
    (given : ∀ {ts}, exprs info args = .ok ts → (ts.map breaks).sum ≤ Expr.breaksIn args)
    (h : expr info (.call span (.member mspan x name accessor) args) = .ok s) :
    breaks s ≤ x.breaks + Expr.breaksIn args := by
  have whole : ∀ {t}, expr info x = .ok t → breaks t + breaks name ≤ x.breaks := by
    intro t run
    rw [← breaks_render (info.access.getD mspan (defaultAccess accessor))]
    apply callee
    unfold expr
    rw [run]
    rfl
  unfold expr at h
  split at h
  · next c found =>
    obtain ⟨receiver, first, h⟩ := except_bind_ok h
    obtain ⟨xs, rest, h⟩ := except_bind_ok h
    cases h
    have cname : breaks c.ext.cname = 0 := (spelt.calls _ _ found).cname
    have := whole first
    have := given rest
    simp +ground only [breaks_append, breaks_join, List.map_cons, List.sum_cons,
      breaks_receiverText, cname]
    omega
  · obtain ⟨receiver, first, h⟩ := except_bind_ok h
    obtain ⟨xs, rest, h⟩ := except_bind_ok h
    cases h
    have := whole first
    have := given rest
    simp +ground only [breaks_append, breaks_join, breaks_render]
    omega

mutual

theorem expr_breaks (spelt : info.Spelt OneLine) : {e : Expr} → e.Flat → {s : String} →
    expr info e = .ok s → breaks s ≤ e.breaks
  | .literal _ kind value, _, s, h => by
    cases h
    exact breaks_literal kind value
  | .ident _ name, flat, s, h => by
    cases h
    exact Nat.le_of_eq flat
  | .self span, _, s, h => by
    cases h
    split <;> exact Nat.zero_le _
  | .paren _ x, flat, s, h => by
    obtain ⟨t, inner, h⟩ := except_bind_ok h
    cases h
    have := expr_breaks spelt (e := x) flat inner
    simp +ground only [breaks_append, Expr.breaks]
    omega
  | .binary _ op l r, flat, s, h => by
    obtain ⟨a, left, h⟩ := except_bind_ok h
    obtain ⟨b, right, h⟩ := except_bind_ok h
    cases h
    have := expr_breaks spelt flat.1 left
    have := expr_breaks spelt flat.2 right
    have symbol := op.breaks_symbol
    simp +ground only [breaks_append, Expr.breaks, symbol]
    omega
  | .unary _ op x trailing, flat, s, h => by
    obtain ⟨a, inner, h⟩ := except_bind_ok h
    cases h
    have := expr_breaks spelt (e := x) flat inner
    have symbol := op.breaks_symbol
    split <;> simp only [breaks_append, Expr.breaks, symbol] <;> omega
  | .call span fn args, flat, s, h => by
    have callee := fun {t} (run : expr info fn = .ok t) => expr_breaks spelt flat.1 run
    have given := fun {ts} (run : exprs info args = .ok ts) => exprs_breaks spelt flat.2 run
    show breaks s ≤ fn.breaks + Expr.breaksIn args
    cases fn with
    | member mspan x name accessor => exact memberCall_breaks (x := x) spelt callee given h
    | _ =>
      obtain ⟨f, first, h⟩ := except_bind_ok h
      obtain ⟨xs, rest, h⟩ := except_bind_ok h
      cases h
      have := callee first
      have := given rest
      simp +ground only [breaks_append, breaks_join]
      omega
  | .member span x name accessor, flat, s, h => by
    obtain ⟨receiver, inner, h⟩ := except_bind_ok h
    cases h
    have one : breaks name = 0 := flat.2
    have := expr_breaks spelt flat.1 inner
    simp only [breaks_render, Expr.breaks, one]
    omega
  | .index _ x i, flat, s, h => by
    obtain ⟨a, left, h⟩ := except_bind_ok h
    obtain ⟨b, right, h⟩ := except_bind_ok h
    cases h
    have := expr_breaks spelt flat.1 left
    have := expr_breaks spelt flat.2 right
    simp +ground only [breaks_append, Expr.breaks]
    omega
  | .new _ type args, flat, s, h => by
    obtain ⟨xs, inner, h⟩ := except_bind_ok h
    cases h
    have alloc : breaks (typeName (info.typeOfExpr type)) = 0 :=
      oneLine_typeName (spelt.typeOfExpr flat.1)
    have := exprs_breaks spelt flat.2 inner
    simp +ground only [breaks_append, breaks_join, Expr.breaks, alloc]
    omega
  | .delete _ x, flat, s, h => by
    obtain ⟨a, inner, h⟩ := except_bind_ok h
    cases h
    have := expr_breaks spelt (e := x) flat inner
    simp +ground only [breaks_append, Expr.breaks]
    omega
  | .cast _ x kind type, flat, s, h => by
    obtain ⟨a, inner, h⟩ := except_bind_ok h
    cases h
    have target : breaks (typeName (info.typeOfExpr type)) = 0 :=
      oneLine_typeName (spelt.typeOfExpr flat.2)
    have := expr_breaks spelt flat.1 inner
    simp only [breaks_castText, Expr.breaks, target]
    omega
  | .tuple _ elems, flat, s, h => by
    obtain ⟨xs, inner, h⟩ := except_bind_ok h
    cases h
    have := exprs_breaks spelt (show Expr.FlatAll elems from flat) inner
    simp +ground only [breaks_append, breaks_join, Expr.breaks]
    omega
  | .tupleIndex _ x i, flat, s, h => by
    obtain ⟨a, inner, h⟩ := except_bind_ok h
    cases h
    have number : breaks (toString i) = 0 := oneLine_toString i
    have := expr_breaks spelt (e := x) flat inner
    simp +ground only [breaks_append, Expr.breaks, number]
    omega
  | .ternary _ c y n, flat, s, h => by
    obtain ⟨a, first, h⟩ := except_bind_ok h
    obtain ⟨b, second, h⟩ := except_bind_ok h
    obtain ⟨d, third, h⟩ := except_bind_ok h
    cases h
    have := expr_breaks spelt flat.1 first
    have := expr_breaks spelt flat.2.1 second
    have := expr_breaks spelt flat.2.2 third
    simp +ground only [breaks_append, Expr.breaks]
    omega
  | .range span _ _, _, s, h => by
    cases h
theorem exprs_breaks (spelt : info.Spelt OneLine) : {es : List Expr} → Expr.FlatAll es →
    {ss : List String} → exprs info es = .ok ss → (ss.map breaks).sum ≤ Expr.breaksIn es
  | [], _, ss, h => by
    cases h
    exact Nat.le_refl _
  | e :: es, flat, ss, h => by
    obtain ⟨x, first, h⟩ := except_bind_ok h
    obtain ⟨xs, rest, h⟩ := except_bind_ok h
    cases h
    exact Nat.add_le_add (expr_breaks spelt flat.1 first) (exprs_breaks spelt flat.2 rest)

end

/-! ### Variables -/

theorem oneLine_lead (ms : Modifiers) : OneLine ms.lead := by
  unfold Modifiers.lead
  apply oneLine_concat
  intro s member
  obtain ⟨m, -, rfl⟩ := List.mem_map.mp member
  cases m <;> rfl

theorem oneLine_declType (spelt : info.Spelt OneLine) (d : VarDecl) : OneLine (declType info d) := by
  unfold declType
  dsimp only
  split
  · exact (Resolution.spelt_symbolType .lines spelt _).cpp
  · split <;> rfl

theorem breaks_sharedBinding {type : String} (one : OneLine type) (value : String) (n : Nat) :
    OneLine (sharedBinding type value n).1 ∧
      breaks (sharedBinding type value n).2 = breaks value := by
  induction n with
  | zero => exact ⟨one, rfl⟩
  | succ n ih =>
    unfold sharedBinding
    generalize sharedBinding type value n = binding at ih
    obtain ⟨outer, inner⟩ := ih
    simp +ground [OneLine, outer, inner]

theorem newBinding_breaks (spelt : info.Spelt OneLine) {d : VarDecl} {pos : Pos} {type : TypeExpr}
    {args : List Expr} {name s : String} (flat : type.Flat) (flats : Expr.FlatAll args)
    (one : OneLine name) (h : newBinding info d pos type args name = .ok s) :
    breaks s ≤ Expr.breaksIn args := by
  obtain ⟨xs, inner, h⟩ := except_bind_ok h
  have given := exprs_breaks spelt flats inner
  have alloc : breaks (typeName (info.typeOfExpr type)) = 0 :=
    oneLine_typeName (spelt.typeOfExpr flat)
  split at h
  · cases h
    split <;> simp +ground only [breaks_append, breaks_join, alloc, one] <;> omega
  · cases h
    split <;> simp +ground only [breaks_append, breaks_join, alloc, one] <;> omega
  · next level _ =>
    cases h
    have star : OneLine (typeName (info.typeOfExpr type) ++ "*") := by
      rw [OneLine, breaks_append, alloc]
      rfl
    obtain ⟨outer, inner⟩ := breaks_sharedBinding star
      ("new " ++ typeName (info.typeOfExpr type) ++ "(" ++ Text.join ", " xs ++ ")") (level - 1)
    generalize sharedBinding _ _ _ = binding at outer inner
    simp +ground only [breaks_append, breaks_join, alloc, one, outer, inner]
    omega
  · cases h
    simp +ground only [breaks_append, breaks_join, alloc, one]
    omega
  · cases h
    simp +ground only [breaks_append, breaks_join, alloc, one]
    omega
  · cases h
  · cases h

theorem variableText_breaks (spelt : info.Spelt OneLine) {d : VarDecl} {name s : String}
    {ms : Modifiers} {withValue : Bool} (flat : ∀ v, d.value = some v → v.Flat)
    (one : OneLine name) (h : variableText info d name ms withValue = .ok s) :
    breaks s ≤ Expr.breaksOf d.value := by
  have lead : breaks ms.lead = 0 := oneLine_lead ms
  have type : breaks (declType info d) = 0 := oneLine_declType spelt d
  unfold variableText at h
  dsimp only at h
  split at h
  · cases h
  split at h
  · next span t args has =>
    obtain ⟨x, bound, h⟩ := except_bind_ok h
    cases h
    have flat := flat _ has
    have := newBinding_breaks spelt flat.1 flat.2 one bound
    rw [has]
    simp only [breaks_append, lead]
    show _ ≤ Expr.breaksIn args
    omega
  · next v _ has =>
    obtain ⟨x, value, h⟩ := except_bind_ok h
    cases h
    have := expr_breaks spelt (flat _ has) value
    rw [has]
    show _ ≤ v.breaks
    split <;> simp +ground only [breaks_append, lead, type, one] <;> omega
  · cases h
    simp +ground only [breaks_append, lead, type, one]
    omega

/-! ### Statements -/

theorem oneLine_deleteText {o : Owned} (one : OneLine o.name) : OneLine (deleteText o) := by
  unfold deleteText
  simp +ground [OneLine, breaks_repeated, one]

theorem oneLine_releases {exit : Option Exit} (flat : Exit.Flat exit) : OneLine (releases exit) := by
  cases exit with
  | none => rfl
  | some x =>
    apply oneLine_concat
    intro s member
    obtain ⟨o, inside, rfl⟩ := List.mem_map.mp member
    have one := oneLine_deleteText (flat x rfl o inside)
    rw [OneLine, breaks_append, one]
    rfl

theorem unparen_flat : (e : Expr) → e.Flat → e.unparen.Flat ∧ e.unparen.breaks = e.breaks
  | .paren _ x, flat => unparen_flat x flat
  | .literal _ _ _, flat | .ident _ _, flat | .self _, flat | .binary _ _ _ _, flat
  | .unary _ _ _ _, flat | .call _ _ _, flat | .member _ _ _ _, flat | .index _ _ _, flat
  | .new _ _ _, flat | .delete _ _, flat | .cast _ _ _ _, flat | .tuple _ _, flat
  | .tupleIndex _ _ _, flat | .range _ _ _, flat | .ternary _ _ _ _, flat => ⟨flat, rfl⟩

theorem oneLine_compareText (kind : CountKind) : OneLine (compareText kind) := by
  cases kind <;> rfl

section

variable (spelt : info.Spelt OneLine)

include spelt

theorem condition_breaks {e : Expr} {negate : Bool} (flat : e.Flat)
    (h : condition info e negate = .ok s) : breaks s ≤ e.breaks := by
  obtain ⟨x, inner, h⟩ := except_bind_ok h
  cases h
  obtain ⟨flat, same⟩ := unparen_flat e flat
  have := expr_breaks spelt flat inner
  split
  · simp +ground only [breaks_append]
    omega
  · omega

theorem loopCondition_breaks {e : Option Expr} {negate : Bool} (flat : ∀ x, e = some x → x.Flat)
    (h : loopCondition info e negate = .ok s) :
    breaks s ≤ Expr.breaksOf e := by
  cases e with
  | none =>
    cases h
    exact Nat.zero_le _
  | some x => exact condition_breaks spelt (flat x rfl) h

theorem returnText_breaks {value : Option Expr} {effect : Bool} {exit : Option Exit}
    (flat : ∀ v, value = some v → v.Flat) (tidy : Exit.Flat exit)
    (h : returnText info value effect exit = .ok s) :
    breaks s ≤ Expr.breaksOf value := by
  have first : breaks (releases exit) = 0 := oneLine_releases tidy
  unfold returnText at h
  split at h
  · cases h
    simp +ground [first]
  · next v =>
    obtain ⟨x, inner, h⟩ := except_bind_ok h
    have := expr_breaks spelt (flat v rfl) inner
    show _ ≤ v.breaks
    split at h
    · cases h
      simp +ground only [breaks_append]
      omega
    · split at h
      · cases h
        simp +ground only [breaks_append, first]
        omega
      · cases h
        simp +ground only [breaks_append, first]
        omega

theorem oneLine_counterType (span : Span) :
    OneLine (counterType info span) := by
  unfold counterType
  split
  · exact oneLine_typeName (Resolution.spelt_symbolType .lines spelt _).deref
  · rfl

theorem stepText_breaks {kind : CountKind} {step : Option Expr} (one : OneLine name)
    (flat : ∀ e, step = some e → e.Flat) (h : stepText info kind name step = .ok s) :
    breaks s ≤ Expr.breaksOf step := by
  unfold stepText at h
  split at h
  · next e =>
    obtain ⟨x, inner, h⟩ := except_bind_ok h
    cases h
    have := expr_breaks spelt (flat e rfl) inner
    show _ ≤ e.breaks
    split <;> simp +ground only [breaks_append, one] <;> omega
  · cases h
    split <;> simp +ground only [breaks_append, one]

theorem countHead_breaks {span : Span} {kind : CountKind} {low high : Expr} {step : Option Expr}
    (one : OneLine name) (lowFlat : low.Flat) (highFlat : high.Flat)
    (stepFlat : ∀ e, step = some e → e.Flat)
    (h : countHead info span kind name low high step = .ok s) :
    breaks s ≤ low.breaks + high.breaks + Expr.breaksOf step ∧ Printer.Open s := by
  obtain ⟨next, stepped, h⟩ := except_bind_ok h
  obtain ⟨l, first, h⟩ := except_bind_ok h
  obtain ⟨r, second, h⟩ := except_bind_ok h
  obtain rfl := Except.ok.inj h
  have type : breaks (counterType info span) = 0 := oneLine_counterType spelt span
  have compare : breaks (compareText kind) = 0 := oneLine_compareText kind
  have := stepText_breaks spelt one stepFlat stepped
  have := expr_breaks spelt lowFlat first
  have := expr_breaks spelt highFlat second
  refine ⟨?_, Printer.open_append _ rfl⟩
  simp +ground only [breaks_append, type, compare, one]
  omega

theorem spelt_eachType (span : Span) :
    (eachType info span).Spelt OneLine := by
  unfold eachType
  split
  · exact Resolution.spelt_symbolType .lines spelt _
  · trivial

theorem oneLine_eachVar (span : Span) (one : OneLine name)
    (storage : Storage) : OneLine (eachVar info span name storage) := by
  unfold eachVar
  dsimp only
  split
  · rw [OneLine, breaks_append, breaks_append, (spelt_eachType spelt span).cpp, one]
    rfl
  · split
    all_goals
      rw [OneLine, breaks_append, one]
      rfl

theorem eachHead_breaks {span : Span} {storage : Storage} {items : Expr} (one : OneLine name)
    (flat : items.Flat) (h : eachHead info span name storage items = .ok s) :
    breaks s ≤ items.breaks ∧ Printer.Open s := by
  unfold eachHead at h
  split at h
  · next low high =>
    obtain ⟨l, first, h⟩ := except_bind_ok h
    obtain ⟨r, second, h⟩ := except_bind_ok h
    obtain rfl := Except.ok.inj h
    have type : breaks (counterType info span) = 0 := oneLine_counterType spelt span
    have := expr_breaks spelt flat.1 first
    have := expr_breaks spelt flat.2 second
    refine ⟨?_, Printer.open_append _ rfl⟩
    show _ ≤ low.breaks + high.breaks
    simp +ground only [breaks_append, type, one]
    omega
  · obtain ⟨x, inner, h⟩ := except_bind_ok h
    obtain rfl := Except.ok.inj h
    have var := oneLine_eachVar spelt span one storage
    have := expr_breaks spelt flat inner
    refine ⟨?_, Printer.open_append _ rfl⟩
    simp +ground only [breaks_append, var]
    omega

/-! ### Functions -/

variable {defaults : Bool}

theorem param_breaks {q : Param} (flat : q.Flat)
    (h : param info defaults q = .ok s) : breaks s ≤ Expr.breaksOf q.value := by
  have type : breaks (typeName (info.paramType q)) = 0 :=
    oneLine_typeName (Resolution.spelt_symbolType .lines spelt _)
  have name : breaks q.name = 0 := flat.name
  have moved : breaks (if q.storage.kind == .moved then "&&" else "") = 0 := by
    split <;> rfl
  unfold param at h
  dsimp only at h
  split at h
  · cases h
  split at h
  · next v has =>
    obtain ⟨x, inner, h⟩ := except_bind_ok h
    cases h
    have := expr_breaks spelt (flat.value v has) inner
    rw [has]
    show _ ≤ v.breaks
    simp +ground only [breaks_append, type, name, moved]
    omega
  · cases h
    simp +ground only [breaks_append, type, name, moved]
    exact Nat.zero_le _

theorem paramTexts_breaks {qs : List Param} {xs : List String} (flat : ∀ q ∈ qs, q.Flat)
    (h : qs.mapM (param info defaults) = .ok xs) :
    (xs.map breaks).sum ≤ Param.breaksIn qs := by
  induction qs generalizing xs with
  | nil =>
    cases h
    exact Nat.le_refl _
  | cons q qs ih =>
    obtain ⟨first, rest⟩ := List.forall_mem_cons.mp flat
    rw [List.mapM_cons] at h
    obtain ⟨x, one, h⟩ := except_bind_ok h
    obtain ⟨ys, more, h⟩ := except_bind_ok h
    cases h
    exact Nat.add_le_add (param_breaks spelt first one) (ih rest more)

theorem params_breaks {qs : List Param} (flat : ∀ q ∈ qs, q.Flat)
    (h : params info defaults qs = .ok s) :
    breaks s ≤ Param.breaksIn qs := by
  obtain ⟨xs, inner, h⟩ := except_bind_ok h
  cases h
  rw [breaks_join rfl]
  exact paramTexts_breaks spelt flat inner

theorem signature_breaks {owner qualifier : String} {f : FuncDecl} (named : OneLine owner)
    (qualified : OneLine qualifier) (name : OneLine f.name)
    (symbol : ∀ x, f.kind = .operator x → OneLine x) (flat : ∀ q ∈ f.params, q.Flat)
    (h : signature info owner f qualifier defaults = .ok s) :
    breaks s ≤ Param.breaksIn f.params := by
  obtain ⟨ps, inner, h⟩ := except_bind_ok h
  have given := params_breaks spelt flat inner
  have result : breaks (typeName (info.result f)) = 0 := oneLine_typeName (spelt.result f)
  have const : breaks (if f.constant then " const" else "") = 0 := by
    split <;> rfl
  dsimp only at h
  split at h
  · cases h
    simp +ground only [breaks_append, named, qualified]
    omega
  · cases h
    simp +ground only [breaks_append, named, qualified]
    omega
  · next x kind =>
    cases h
    have symbol := symbol x kind
    simp +ground only [breaks_append, result, qualified, symbol, const]
    omega
  · cases h
    simp +ground only [breaks_append, result, qualified, name, const]
    omega

theorem extensionSignature_breaks {e : Extension} {f : FuncDecl} (named : e.Spelt OneLine)
    (flat : ∀ q ∈ f.params, q.Flat)
    (h : extensionSignature info e f defaults = .ok s) : breaks s ≤ Param.breaksIn f.params := by
  obtain ⟨ps, inner, h⟩ := except_bind_ok h
  cases h
  have := params_breaks spelt flat inner
  have result : breaks (typeName (info.result f)) = 0 := oneLine_typeName (spelt.result f)
  have self : breaks e.self.cpp = 0 := named.self.cpp
  have cname : breaks e.cname = 0 := named.cname
  -- the literals are evaluated, which is not to open the text of the type
  generalize e.self.cpp = type at self
  split <;> simp +ground only [breaks_append, result, self, cname] <;> omega

end

end Emission

end TastyLang
