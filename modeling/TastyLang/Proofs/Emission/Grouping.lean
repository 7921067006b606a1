import Mathlib.Data.List.Forall2
import TastyLang.Proofs.Emission.Operators
import TastyLang.Proofs.Evaluation
import TastyLang.Resolution.Expressions

/-!
# Texts that keep their grouping

The text of an expression is made of the tokens of its tree, with blanks where tokens need them.
For every kind of node this is shown from what it is made of, together with the tree being grouped
as C++ groups it; `expr_keeps_grouping` puts the nodes together.
-/

namespace TastyLang

open Token (Form)

namespace Emission

open TastyLang.Expr (leadingLevel trailingLevel)

variable {info : Info}

/-- C++ takes the text of an expression for its tree. -/
structure Kept (info : Info) (e : Expr) : Prop where
  legible : (tree info e).Legible Cpp.dialect
  spelt : ∃ text, expr info e = .ok text ∧ Cpp.Spells text.toList (tree info e).forms

structure KeptAll (info : Info) (es : List Expr) : Prop where
  written : Expr.WrittenAll Cpp.dialect (trees info es)
  grouped : Expr.GroupedAll Cpp.dialect (trees info es)
  spelt : ∃ texts, exprs info es = .ok texts ∧
    List.Forall₂ (fun x t => Cpp.Spells x.toList t.forms) texts (trees info es)

theorem KeptAll.nil : KeptAll info [] := ⟨trivial, trivial, [], rfl, .nil⟩

theorem KeptAll.cons {e : Expr} {es : List Expr} (first : Kept info e) (rest : KeptAll info es) :
    KeptAll info (e :: es) := by
  obtain ⟨x, done, spelt⟩ := first.spelt
  obtain ⟨xs, done', spelt'⟩ := rest.spelt
  refine ⟨⟨first.legible.written, rest.written⟩, ⟨first.legible.grouped, rest.grouped⟩, x :: xs, ?_,
    .cons spelt spelt'⟩
  rw [exprs, done, done']
  rfl

variable {t : Expr}

theorem leading_legible {s : Span} {o : Operator} (leading : Reader.isLeading o = true)
    (level : leadingLevel ≤ t.level Cpp.dialect) (legible : t.Legible Cpp.dialect) :
    (Expr.unary s o t false).Legible Cpp.dialect :=
  ⟨legible.written, leading, level, legible.grouped⟩

/-! ### Leaves -/

theorem numeralTree_forms (value : String) : (numeralTree value).forms = [⟨.number, value⟩] := by
  unfold numeralTree
  split <;> rfl

theorem numeralTree_legible (value : String) : (numeralTree value).Legible Cpp.dialect := by
  unfold numeralTree
  split
  · next float => exact ⟨float, trivial⟩
  · next int => exact ⟨eq_false_of_ne_true int, trivial⟩

theorem numeralTree_level (value : String) :
    (numeralTree value).level Cpp.dialect = Expr.primaryLevel := rfl

theorem dropHead?_eq_some {p s rest : String} (h : Text.dropHead? p s = some rest) :
    s = p ++ rest := by
  obtain ⟨cs, found, rfl⟩ := Option.map_eq_some_iff.mp h
  apply String.toList_inj.mp
  rw [Text.after?_eq_some.mp found, String.toList_append, String.toList_ofList]

theorem literal_kept (s : Span) (kind : LiteralKind) (value : String) :
    Kept info (.literal s kind value) := by
  have numeral : (literalTree .int value).Legible Cpp.dialect ∧
      Cpp.Spells value.toList (literalTree .int value).forms := by
    simp only [literalTree]
    split
    · next v signed =>
      refine ⟨leading_legible rfl ?_ (numeralTree_legible v), ?_⟩
      · rw [numeralTree_level]
        decide
      · rw [dropHead?_eq_some signed, Expr.forms, numeralTree_forms]
        exact .behind_op (o := .minus) (.word (f := ⟨.number, v⟩) (by rintro ⟨⟩)) rfl
    · rw [numeralTree_forms]
      exact ⟨numeralTree_legible value, .word (f := ⟨.number, value⟩) (by rintro ⟨⟩)⟩
  cases kind with
  | null => exact ⟨⟨trivial, trivial⟩, "nullptr", rfl, .word (f := ⟨.ident, "nullptr"⟩) fun _ => rfl⟩
  | int | float => exact ⟨numeral.1, value, rfl, numeral.2⟩
  | string => exact ⟨⟨trivial, trivial⟩, value, rfl, .word (f := ⟨.string, value⟩) (by rintro ⟨⟩)⟩
  | char => exact ⟨⟨trivial, trivial⟩, value, rfl, .word (f := ⟨.character, value⟩) (by rintro ⟨⟩)⟩
  | bool =>
    exact ⟨⟨trivial, trivial⟩, value, rfl, .word (f := LiteralKind.bool.form value) (by rintro ⟨⟩)⟩

variable {name : String}

theorem ident_kept {s : Span} (h : Cpp.isName name = true) :
    Kept info (.ident s name) :=
  ⟨⟨trivial, trivial⟩, name, rfl, .word (f := ⟨.ident, name⟩) fun _ => h⟩

theorem self_kept (s : Span) : Kept info (.self s) := by
  have named : Cpp.isName (if info.this.contains s then "this" else "self") = true := by
    split <;> decide
  refine ⟨⟨trivial, trivial⟩, if info.this.contains s then "this" else "self", ?_, ?_⟩
  · rw [expr]
    rfl
  · rw [tree, Expr.forms]
    exact .word (f := ⟨.ident, _⟩) fun _ => named

/-! ### Operators -/

variable {s : Span} {o : Operator} {l r x : Expr}

theorem paren_kept (kept : Kept info x) : Kept info (.paren s x) := by
  obtain ⟨text, done, spelt⟩ := kept.spelt
  refine ⟨⟨kept.legible.written, kept.legible.grouped⟩, "(" ++ text ++ ")", ?_, ?_⟩
  · rw [expr, done]
    rfl
  · exact spelt.parenthesized

theorem binary_kept (joins : Cpp.dialect.Joins o ((tree info l).level Cpp.dialect)
    ((tree info r).level Cpp.dialect)) (notTernary : o ≠ .question) (notRange : o ≠ .range)
    (left : Kept info l) (right : Kept info r) : Kept info (.binary s o l r) := by
  obtain ⟨a, done, spelt⟩ := left.spelt
  obtain ⟨b, done', spelt'⟩ := right.spelt
  refine ⟨⟨⟨left.legible.written, right.legible.written⟩, notTernary, notRange, joins,
    left.legible.grouped, right.legible.grouped⟩, a ++ " " ++ o.symbol ++ " " ++ b, ?_, ?_⟩
  · rw [expr, done, done']
    rfl
  · rw [tree, Expr.forms, List.append_cons]
    exact (spelt.spaced (.operator o)).spaced spelt'

theorem ternary_kept {c y n : Expr}
    (joins : Cpp.dialect.Joins .question ((tree info c).level Cpp.dialect)
      ((tree info n).level Cpp.dialect))
    (cond : Kept info c) (yes : Kept info y) (no : Kept info n) :
    Kept info (.ternary s c y n) := by
  obtain ⟨a, done, spelt⟩ := cond.spelt
  obtain ⟨b, done', spelt'⟩ := yes.spelt
  obtain ⟨d, done'', spelt''⟩ := no.spelt
  refine ⟨⟨⟨cond.legible.written, yes.legible.written, no.legible.written⟩, joins,
    cond.legible.grouped, yes.legible.grouped, no.legible.grouped⟩, a ++ " ? " ++ b ++ " : " ++ d,
    ?_, ?_⟩
  · rw [expr, done, done', done'']
    rfl
  · have text : a ++ " ? " ++ b ++ " : " ++ d =
        a ++ " " ++ Operator.question.symbol ++ " " ++ b ++ " " ++ Operator.colon.symbol ++ " " ++ d
        := by
      simp only [String.append_assoc]
      rfl
    rw [text, tree, Expr.forms, List.append_cons, ← List.append_assoc, List.append_cons]
    exact (((spelt.spaced (.operator .question)).spaced spelt').spaced (.operator .colon)).spaced
      spelt''

/-! ### Leading operators -/

theorem leading?_of_tree {x y : Expr} {s : Span} {o : Operator}
    (h : tree info x = .unary s o y false) : leading? x = some o := by
  cases x with
  | unary s' o' x trailing =>
    cases h
    rfl
  | literal s' kind value =>
    simp only [tree] at h
    cases kind with
    | int | float =>
      simp only [literalTree] at h
      split at h
      · next v signed =>
        cases h
        simp [leading?, isSigned, numeral?, Text.startsWith, signed]
      · cases h
    | _ => cases h
  | call s' fn args =>
    rcases call_cases info s' fn with plain | ⟨m, x, name, accessor, c, rfl, found⟩
    · rw [tree_call plain] at h
      cases h
    · rw [tree_extension found] at h
      cases h
  | member s' x name accessor =>
    rw [tree] at h
    cases access : accessOf info s' accessor with
    | arrow d =>
      simp only [access, accessTree] at h
      split at h <;> cases h
    | _ =>
      simp only [access, accessTree] at h
      cases h
  | cast s' x kind type => cases kind <;> cases h
  | _ => cases h

theorem apart_opens {g : Form} (h : g.kind.opensPrimary = true ∨ g.kind.isReserved = true)
    (leading : Reader.isLeading o = true) : Cpp.apart (.op o) g = true := by
  obtain ⟨kind, literal⟩ := g
  cases kind with
  | op o' =>
    cases o' with
    | openParen => exact (Cpp.operatorApart_bracket (o := .openParen) (by decide) o).2
    | _ => rcases h with h | h <;> cases h
  | number => cases o <;> first | rfl | cases leading
  | _ => rfl

theorem operand_apart (kept : Kept info x) (level : leadingLevel ≤ (tree info x).level Cpp.dialect)
    (leading : Reader.isLeading o = true)
    (signs : (leading? x).all (Cpp.operatorApart o) = true) :
    Cpp.apart (.op o) (Form.first (tree info x).forms) = true := by
  have led := Expr.led_of_level Cpp.dialect_regular kept.legible.written kept.legible.grouped level
  generalize tree_ : tree info x = t at led
  cases led with
  | chain chain =>
    have first := chain.first []
    rw [List.append_nil] at first
    exact apart_opens (.inl first) leading
  | leading =>
    rw [leading?_of_tree tree_] at signs
    exact signs
  | cast => exact (Cpp.operatorApart_bracket (o := .openParen) (by decide) o).2
  | delete | new => rfl

theorem leading_kept (kept : Kept info x)
    (level : leadingLevel ≤ (tree info x).level Cpp.dialect) (leading : Reader.isLeading o = true)
    (signs : (leading? x).all (Cpp.operatorApart o) = true) : Kept info (.unary s o x false) := by
  obtain ⟨text, done, spelt⟩ := kept.spelt
  refine ⟨leading_legible leading level kept.legible, o.symbol ++ text, ?_, ?_⟩
  · rw [expr, done]
    rfl
  · exact .behind_op spelt (operand_apart kept level leading signs)

theorem delete_kept (kept : Kept info x)
    (level : leadingLevel ≤ (tree info x).level Cpp.dialect) : Kept info (.delete s x) := by
  obtain ⟨text, done, spelt⟩ := kept.spelt
  refine ⟨⟨kept.legible.written, level, kept.legible.grouped⟩, "delete " ++ text, ?_, ?_⟩
  · rw [expr, done]
    rfl
  · have split : "delete " ++ text = "delete" ++ " " ++ text := by
      rw [show "delete " = "delete" ++ " " by decide]
    rw [split]
    exact .spaced (.word (f := .keyword .kDelete) fun h => nomatch h) spelt

variable {args : List Expr} {type : TypeExpr}

theorem new_kept (kept : KeptAll info args) :
    Kept info (.new s type args) := by
  obtain ⟨texts, done, spelt⟩ := kept.spelt
  let word := typeName (info.typeOfExpr type)
  refine ⟨⟨⟨rfl, trivial, kept.written⟩, kept.grouped⟩,
    "new " ++ word ++ "(" ++ Text.join ", " texts ++ ")", ?_, ?_⟩
  · rw [expr, done]
    rfl
  · have text : "new " ++ word ++ "(" ++ Text.join ", " texts ++ ")" =
        "new" ++ " " ++ (word ++ "(" ++ Text.join ", " texts ++ ")") := by
      simp only [String.append_assoc]
      rfl
    have type_ : (TypeExpr.named {} word [] 0).text = word := by
      simp [TypeExpr.text, Text.repeated]
    rw [text, tree, Expr.forms, type_]
    exact .spaced (.word (f := .keyword .kNew) (by rintro ⟨⟩))
      (.called (.word (f := ⟨.raw, word⟩) (by rintro ⟨⟩)) spelt)

/-! ### What follows an operand -/

/-- The operators that may follow an operand. -/
def trailers : List Operator := [.dot, .arrow, .scope, .increment, .decrement]

/-- The operators that an operand may end in. -/
def closers : List Operator := [.closeParen, .closeBracket, .increment, .decrement]

theorem closer_apart : ∀ o ∈ closers, ∀ p ∈ trailers, Cpp.operatorApart o p = true := by
  decide

theorem getLast?_closed (fs gs : List Form) (f g : Form) :
    (fs ++ f :: (gs ++ [g])).getLast? = some g := by
  rw [← List.cons_append, ← List.append_assoc, List.getLast?_concat]

theorem getLast?_call (f : Expr) (args : List Expr) :
    (Expr.call {} f args).forms.getLast? = some (.op .closeParen) := by
  rw [Expr.forms, getLast?_closed]

variable {accessor : Accessor}

theorem last_member {x : Expr} (o : Operator) :
    ∀ f ∈ (Expr.member {} x name accessor).forms.getLast?, Cpp.apart f (.op o) = true := by
  intro f member
  rw [Expr.forms, List.append_cons, List.getLast?_concat] at member
  cases member
  have word := Token.ofWord_cases name
  generalize Token.Kind.ofWord name = kind at word
  cases kind with
  | op | number => rcases word with word | word <;> cases word
  | _ => rfl

theorem paren_apart (accessor : Accessor) :
    ∀ f ∈ (Expr.paren {} t).forms.getLast?, Cpp.apart f (.op accessor.operator) = true := by
  rw [Expr.forms, ← List.cons_append, List.getLast?_concat]
  rintro f ⟨⟩
  exact closer_apart .closeParen (by decide) _ (by cases accessor <;> decide)

/-- An operand ends in front of the operators that may follow it. -/
theorem receiver_apart {p : Operator} (trailer : p ∈ trailers) (grouped : x.Grouped .source)
    (level : trailingLevel ≤ x.level .source) (receiver : isReceiver p x = true) :
    ∀ f ∈ (tree info x).forms.getLast?, Cpp.apart f (.op p) = true := by
  have noOperator := operator?_eq_none grouped (Int.le_trans (by decide) level)
  have closes {c : Operator} (h : c ∈ closers) : ∀ f ∈ some (Form.op c),
      Cpp.apart f (.op p) = true := by
    rintro f ⟨⟩
    exact closer_apart c h p trailer
  simp only [isReceiver, Bool.and_eq_true, Bool.not_eq_true'] at receiver
  obtain ⟨plain, numerals⟩ := receiver
  cases x with
  | binary | range | ternary => cases noOperator
  | delete s x => exact absurd level (by rw [Expr.level]; decide)
  | new s type args => cases plain
  | literal s kind value =>
    rw [tree]
    cases kind with
    | int | float =>
      have unsigned : Text.dropHead? "-" value = none := by
        simpa [isFronted, isSigned, numeral?, Text.startsWith] using plain
      simp only [literalTree, unsigned, numeralTree_forms]
      rintro f ⟨⟩
      exact numerals
    | _ =>
      rintro f ⟨⟩
      rfl
  | ident s name | self s =>
    rintro f ⟨⟩
    rfl
  | paren s x =>
    rw [tree, Expr.forms, ← List.cons_append, List.getLast?_concat]
    exact closes (by decide)
  | call s fn args =>
    rcases call_cases info s fn with called | ⟨m, x, name, accessor, c, rfl, found⟩
    · rw [tree_call called, getLast?_call]
      exact closes (by decide)
    · rw [tree_extension found, getLast?_call]
      exact closes (by decide)
  | member s x name accessor =>
    rw [tree]
    cases accessOf info s accessor with
    | arrow d =>
      simp only [accessTree]
      split <;> exact last_member p
    | _ => exact last_member p
  | index s x i =>
    rw [tree, Expr.forms, getLast?_closed]
    exact closes (by decide)
  | unary s o x trailing =>
    cases trailing with
    | false => exact absurd level (by rw [Expr.level]; decide)
    | true =>
      rw [tree, Expr.forms, List.getLast?_concat]
      rcases grouped.1 with rfl | rfl <;> exact closes (by decide)
  | cast s x kind type =>
    cases kind with
    | plain => cases plain
    | _ =>
      rw [tree, castTree, getLast?_call]
      exact closes (by decide)
  | tuple s elems | tupleIndex s x i =>
    rw [tree, getLast?_call]
    exact closes (by decide)

theorem trailing_kept (step : o = .increment ∨ o = .decrement) (kept : Kept info x)
    (level : trailingLevel ≤ (tree info x).level Cpp.dialect)
    (apart : ∀ f ∈ (tree info x).forms.getLast?, Cpp.apart f (.op o) = true) :
    Kept info (.unary s o x true) := by
  obtain ⟨text, done, spelt⟩ := kept.spelt
  refine ⟨⟨kept.legible.written, step, level, kept.legible.grouped⟩, text ++ o.symbol, ?_, ?_⟩
  · rw [expr, done]
    rfl
  · rw [String.toList_append]
    exact spelt.append (.operator o) (.inr (.inr apart))

theorem index_kept {i : Expr} (kept : Kept info x)
    (level : trailingLevel ≤ (tree info x).level Cpp.dialect) (at_ : Kept info i) :
    Kept info (.index s x i) := by
  obtain ⟨a, done, spelt⟩ := kept.spelt
  obtain ⟨b, done', spelt'⟩ := at_.spelt
  refine ⟨⟨⟨kept.legible.written, at_.legible.written⟩, level, kept.legible.grouped,
    at_.legible.grouped⟩, a ++ "[" ++ b ++ "]", ?_, ?_⟩
  · rw [expr, done, done']
    rfl
  · exact spelt.subscripted spelt'

theorem call_kept {fn : Expr} (plain : IsPlainCall info s fn) (kept : Kept info fn)
    (level : trailingLevel ≤ (tree info fn).level Cpp.dialect)
    (rest : KeptAll info args) : Kept info (.call s fn args) := by
  obtain ⟨f, done, spelt⟩ := kept.spelt
  obtain ⟨texts, done', spelt'⟩ := rest.spelt
  refine ⟨?_, f ++ "(" ++ Text.join ", " texts ++ ")", ?_, ?_⟩
  · rw [tree_call plain]
    exact ⟨⟨kept.legible.written, rest.written⟩, level, kept.legible.grouped, rest.grouped⟩
  · rw [expr_call plain, done, done']
    rfl
  · rw [tree_call plain]
    exact .called spelt spelt'

/-! ### Calls of names -/

theorem isName_of_sign {word : String} (h : '<' ∈ word.toList) : Cpp.isName word = true := by
  have foreign : ∀ w ∈ Cpp.operatorWords, '<' ∉ w.toList := by decide
  simp only [Cpp.isName, Bool.not_eq_true', List.contains_eq_mem, decide_eq_false_iff_not]
  exact fun member => foreign word member h

theorem named_call {w : String} {texts : List String} {ts : List Expr}
    (named : Cpp.isName w = true) (written : Expr.WrittenAll Cpp.dialect ts)
    (grouped : Expr.GroupedAll Cpp.dialect ts)
    (each : List.Forall₂ (fun x t => Cpp.Spells x.toList t.forms) texts ts) :
    (Expr.call {} (.ident {} w) ts).Legible Cpp.dialect ∧
      Cpp.Spells (w ++ "(" ++ Text.join ", " texts ++ ")").toList
        (Expr.call {} (.ident {} w) ts).forms :=
  ⟨⟨⟨trivial, written⟩, by rw [Expr.level]; decide, trivial, grouped⟩,
    .called (.word (f := ⟨.ident, w⟩) fun _ => named) each⟩

theorem wrapped {w a : String} (named : Cpp.isName w = true) (legible : t.Legible Cpp.dialect)
    (spelt : Cpp.Spells a.toList t.forms) :
    (Expr.call {} (.ident {} w) [t]).Legible Cpp.dialect ∧
      Cpp.Spells (w ++ "(" ++ a ++ ")").toList (Expr.call {} (.ident {} w) [t]).forms := by
  have written : Expr.WrittenAll Cpp.dialect [t] := ⟨legible.written, trivial⟩
  have grouped : Expr.GroupedAll Cpp.dialect [t] := ⟨legible.grouped, trivial⟩
  have call := named_call named written grouped (.cons spelt .nil)
  rwa [Text.join] at call

theorem tuple_kept {elems : List Expr} (kept : KeptAll info elems) : Kept info (.tuple s elems) := by
  obtain ⟨texts, done, spelt⟩ := kept.spelt
  obtain ⟨legible, text⟩ := named_call (w := "std::make_tuple") (by decide) kept.written
    kept.grouped spelt
  refine ⟨legible, "std::make_tuple" ++ "(" ++ Text.join ", " texts ++ ")", ?_, text⟩
  rw [expr, done, show "std::make_tuple(" = "std::make_tuple" ++ "(" by decide]
  rfl

theorem tupleIndex_kept {i : Nat} (kept : Kept info x) : Kept info (.tupleIndex s x i) := by
  obtain ⟨a, done, spelt⟩ := kept.spelt
  have named : Cpp.isName s!"std::get<{i}>" = true := by
    refine isName_of_sign ?_
    simp only [String.toList_append, List.mem_append]
    exact .inl (.inl (by decide))
  obtain ⟨legible, text⟩ := wrapped named kept.legible spelt
  refine ⟨legible, _, ?_, text⟩
  have close : toString ">(" = toString ">" ++ "(" := by decide
  simp only [expr, done, close, ok_bind, String.append_assoc, -String.reduceAppend]
  rfl

theorem castText_eq {kind : CastKind} (notPlain : kind ≠ .plain) (type x : String) :
    castText kind type x = castWord kind ++ "<" ++ type ++ ">" ++ "(" ++ x ++ ")" := by
  have close : ">(" = ">" ++ "(" := by decide
  unfold castText castWord
  cases kind with
  | plain => exact absurd rfl notPlain
  | _ =>
    dsimp only [String.reduceAppend]
    rw [close]
    simp only [String.append_assoc, -String.reduceAppend]

theorem namedCast_kept {kind : CastKind} (notPlain : kind ≠ .plain)
    (kept : Kept info x) : Kept info (.cast s x kind type) := by
  obtain ⟨a, done, spelt⟩ := kept.spelt
  let t := typeName (info.typeOfExpr type)
  have named : Cpp.isName (castWord kind ++ "<" ++ t ++ ">") = true := by
    refine isName_of_sign ?_
    simp only [String.toList_append, List.mem_append]
    exact .inl (.inl (.inr (by decide)))
  obtain ⟨legible, text⟩ := wrapped named kept.legible spelt
  have tree_ : tree info (.cast s x kind type) =
      .call {} (.ident {} (castWord kind ++ "<" ++ t ++ ">")) [tree info x] := by
    rw [tree]
    cases kind with
    | plain => exact absurd rfl notPlain
    | _ => rfl
  refine ⟨tree_ ▸ legible, _, ?_, tree_ ▸ text⟩
  rw [expr, done, ← castText_eq notPlain]
  rfl

theorem cast_spelt {a : String} (type : String) (spelt : Cpp.Spells a.toList t.forms) :
    Cpp.Spells ("(" ++ type ++ ")" ++ ("(" ++ a ++ ")")).toList
      (castTree .plain type t).forms := by
  have word : (TypeExpr.named {} type [] 0).text = type := by
    simp [TypeExpr.text, Text.repeated]
  rw [castTree, Expr.forms, word, Expr.forms]
  exact .before_bracket (by decide) (.parenthesized (.word (f := ⟨.raw, type⟩) (by rintro ⟨⟩)))
    spelt.parenthesized

theorem plainCast_kept (kept : Kept info x) :
    Kept info (.cast s x .plain type) := by
  obtain ⟨a, done, spelt⟩ := kept.spelt
  refine ⟨⟨⟨rfl, rfl, trivial, kept.legible.written⟩, ?_, kept.legible.grouped⟩, _, ?_,
    cast_spelt (typeName (info.typeOfExpr type)) spelt⟩
  · rw [Expr.level]
    decide
  · have close : ")(" = ")" ++ "(" := by decide
    rw [expr, done]
    unfold castText
    simp only [close, ok_bind, String.append_assoc, -String.reduceAppend]
    rfl

/-! ### Receivers -/

theorem star_apart {g : Form} (h : g.kind.opens = true) : Cpp.apart (.op .star) g = true := by
  obtain ⟨kind, literal⟩ := g
  cases kind with
  | op o =>
    have all : ∀ o ∈ Operator.all, (Token.Kind.op o).opens = true →
        Cpp.operatorApart .star o = true := by
      decide
    exact all o o.mem_all h
  | _ => rfl

theorem starred_legible (legible : t.Legible Cpp.dialect)
    (level : leadingLevel ≤ t.level Cpp.dialect) (n : Nat) :
    (starred t n).Legible Cpp.dialect ∧ leadingLevel ≤ (starred t n).level Cpp.dialect := by
  induction n with
  | zero => exact ⟨legible, level⟩
  | succ n ih => exact ⟨leading_legible rfl ih.2 ih.1, Int.le_refl _⟩

theorem starred_spelt {a : String} (legible : t.Legible Cpp.dialect)
    (level : leadingLevel ≤ t.level Cpp.dialect) (spelt : Cpp.Spells a.toList t.forms) (n : Nat) :
    Cpp.Spells (Text.repeated "*" n ++ a).toList (starred t n).forms := by
  induction n with
  | zero => simpa [Text.repeated, starred] using spelt
  | succ n ih =>
    obtain ⟨legible, level⟩ := starred_legible legible level n
    have led := Expr.led_of_level Cpp.dialect_regular legible.written legible.grouped level
    have first := led.first []
    rw [List.append_nil] at first
    rw [Text.repeated, String.append_assoc]
    exact .behind_op (o := .star) ih (star_apart first)

theorem member_spelt {a name : String} (accessor : Accessor) (spelt : Cpp.Spells a.toList t.forms)
    (apart : ∀ f ∈ t.forms.getLast?, Cpp.apart f (.op accessor.operator) = true)
    (named : Cpp.isName name = true) :
    Cpp.Spells (a ++ accessor.operator.symbol ++ name).toList
      (Expr.member {} t name accessor).forms := by
  rw [Expr.forms, String.append_assoc, String.toList_append]
  refine spelt.append ?_ (.inr (.inr apart))
  refine .behind_op (.word (f := ⟨.ofWord name, name⟩) fun _ => named) ?_
  have word := Token.ofWord_cases name
  rw [Form.first_cons]
  generalize Token.Kind.ofWord name = kind at word
  cases kind with
  | op | number => rcases word with word | word <;> cases word
  | _ => rfl

theorem isReceiver_of_isPath (o : Operator) (h : isPath info x = true) : isReceiver o x = true := by
  cases x with
  | ident | member => rfl
  | _ => cases h

theorem access_kept {a : Access} (kept : Kept info x) (grouped : x.Grouped .source)
    (level : trailingLevel ≤ x.level .source) (receiver : keepsReceiver info a x = true)
    (named : Cpp.isName name = true) :
    (accessTree a (tree info x) name).Legible Cpp.dialect ∧
      ∃ text, expr info x = .ok text ∧
        Cpp.Spells (a.render text name).toList (accessTree a (tree info x) name).forms := by
  obtain ⟨text, done, spelt⟩ := kept.spelt
  have direct (accessor : Accessor) (ok : isReceiver accessor.operator x = true) :
      (Expr.member {} (tree info x) name accessor).Legible Cpp.dialect ∧
        Cpp.Spells (text ++ accessor.operator.symbol ++ name).toList
          (Expr.member {} (tree info x) name accessor).forms := by
    have plain := (Bool.and_eq_true_iff.mp ok).1
    exact ⟨⟨kept.legible.written, trailing_le_level grouped level (by simpa using plain),
      kept.legible.grouped⟩, member_spelt accessor spelt
        (receiver_apart (by cases accessor <;> decide) grouped level ok) named⟩
  cases a with
  | dot =>
    obtain ⟨legible, spelt⟩ := direct .dot receiver
    exact ⟨legible, text, done, spelt⟩
  | scope =>
    obtain ⟨legible, spelt⟩ := direct .scope (isReceiver_of_isPath _ receiver)
    exact ⟨legible, text, done, spelt⟩
  | arrow d =>
    simp only [accessTree, Access.render]
    split
    · next shallow =>
      have ok : isReceiver .arrow x = true := by
        have flat : ¬ 1 < d := by omega
        simpa [keepsReceiver, flat] using receiver
      obtain ⟨legible, spelt⟩ := direct .arrow ok
      exact ⟨legible, text, done, spelt⟩
    · have noOperator := operator?_eq_none grouped (Int.le_trans (by decide) level)
      have front : leadingLevel ≤ (tree info x).level Cpp.dialect := leading_le_level noOperator
      obtain ⟨legible, -⟩ := starred_legible kept.legible front (d - 1).toNat
      have stars := starred_spelt kept.legible front spelt (d - 1).toNat
      refine ⟨⟨legible.written, by rw [Expr.level]; decide, legible.grouped⟩, text, done, ?_⟩
      have close : ")->" = ")" ++ Accessor.arrow.operator.symbol := by decide
      have whole := member_spelt (t := .paren {} (starred (tree info x) (d - 1).toNat)) .arrow
        stars.parenthesized (paren_apart .arrow) named
      simpa only [close, String.append_assoc, -String.reduceAppend] using whole

theorem member_kept (kept : Kept info x) (grouped : x.Grouped .source)
    (level : trailingLevel ≤ x.level .source)
    (receiver : keepsReceiver info (accessOf info s accessor) x = true)
    (named : Cpp.isName name = true) : Kept info (.member s x name accessor) := by
  obtain ⟨legible, text, done, spelt⟩ := access_kept kept grouped level receiver named
  refine ⟨legible, _, ?_, spelt⟩
  rw [expr, done]
  rfl

theorem receiver_kept (kept : Kept info x) (front : leadingLevel ≤ (tree info x).level Cpp.dialect)
    {text : String} (spelt : Cpp.Spells text.toList (tree info x).forms) (simple : Bool)
    (depth : Nat) :
    (receiverTree simple depth (tree info x)).Legible Cpp.dialect ∧
      Cpp.Spells (receiverText simple depth text).toList
        (receiverTree simple depth (tree info x)).forms := by
  unfold receiverTree receiverText
  split
  · exact ⟨kept.legible, spelt⟩
  · cases simple with
    | true => exact ⟨(starred_legible kept.legible front depth).1,
        starred_spelt kept.legible front spelt depth⟩
    | false =>
      have inner : (Expr.paren {} (tree info x)).Legible Cpp.dialect :=
        ⟨kept.legible.written, kept.legible.grouped⟩
      have level : leadingLevel ≤ (Expr.paren {} (tree info x)).level Cpp.dialect := by
        rw [Expr.level]
        decide
      exact ⟨(starred_legible inner level depth).1,
        starred_spelt inner level spelt.parenthesized depth⟩

theorem extension_kept {m : Span} {c : ExtensionCall} (found : info.extensionCalls[s]? = some c)
    (named : Cpp.isName c.ext.cname = true) (kept : Kept info x)
    (front : leadingLevel ≤ (tree info x).level Cpp.dialect) (rest : KeptAll info args) :
    Kept info (.call s (.member m x name accessor) args) := by
  obtain ⟨text, done, spelt⟩ := kept.spelt
  obtain ⟨texts, done', spelt'⟩ := rest.spelt
  obtain ⟨legible, first⟩ := receiver_kept kept front spelt (isSimple x) c.depth
  obtain ⟨legible, spelt⟩ := named_call named (by exact ⟨legible.written, rest.written⟩)
    (by exact ⟨legible.grouped, rest.grouped⟩) (.cons first spelt')
  rw [← tree_extension found] at legible spelt
  refine ⟨legible, _, ?_, spelt⟩
  rw [expr_extension found, done, done']
  rfl

/-! ### All expressions -/

mutual

theorem kept_of_keeps : ∀ {e : Expr}, e.Grouped .source → keeps info e = true → Kept info e
  | .literal s kind value, _, _ => literal_kept s kind value
  | .ident _ _, _, h => ident_kept h
  | .self s, _, _ => self_kept s
  | .paren _ _, grouped, h => by
    simp only [keeps, Bool.and_eq_true] at h
    exact paren_kept (kept_of_keeps grouped h.2)
  | .binary _ _ _ _, ⟨notTernary, notRange, joins, left, right⟩, h => by
    simp only [keeps, Bool.and_eq_true, Bool.not_eq_true'] at h
    obtain ⟨⟨assigns, keepsLeft⟩, keepsRight⟩ := h
    exact binary_kept (joins_binary joins notTernary notRange assigns left keepsLeft right keepsRight)
      notTernary notRange (kept_of_keeps left keepsLeft) (kept_of_keeps right keepsRight)
  | .ternary _ _ _ _, ⟨joins, cond, yes, no⟩, h => by
    simp only [keeps, Bool.and_eq_true] at h
    obtain ⟨⟨keepsCond, keepsYes⟩, keepsNo⟩ := h
    exact ternary_kept (joins_ternary joins cond keepsCond no keepsNo)
      (kept_of_keeps cond keepsCond) (kept_of_keeps yes keepsYes) (kept_of_keeps no keepsNo)
  | .unary _ _ _ false, ⟨leading, level, grouped⟩, h => by
    simp only [keeps, Bool.and_eq_true, Bool.false_eq_true, if_false] at h
    exact leading_kept (kept_of_keeps grouped h.2)
      (leading_le_level (operator?_eq_none grouped level)) leading h.1
  | .unary _ _ _ true, ⟨step, level, grouped⟩, h => by
    simp only [keeps, Bool.and_eq_true, if_true] at h
    have plain := (Bool.and_eq_true_iff.mp h.1).1
    exact trailing_kept step (kept_of_keeps grouped h.2)
      (trailing_le_level grouped level (by simpa using plain))
      (receiver_apart (by rcases step with rfl | rfl <;> decide) grouped level h.1)
  | .delete _ _, ⟨level, grouped⟩, h => by
    simp only [keeps] at h
    exact delete_kept (kept_of_keeps grouped h)
      (leading_le_level (operator?_eq_none grouped level))
  | .cast _ _ kind _, ⟨_, grouped⟩, h => by
    simp only [keeps] at h
    have kept := kept_of_keeps grouped h
    by_cases plain : kind = .plain
    · subst plain
      exact plainCast_kept kept
    · exact namedCast_kept plain kept
  | .new _ _ _, grouped, h => by
    simp only [keeps] at h
    exact new_kept (keptAll_of_keeps grouped h)
  | .tuple _ _, grouped, h => by
    simp only [keeps] at h
    exact tuple_kept (keptAll_of_keeps grouped h)
  | .tupleIndex _ _ _, ⟨_, grouped⟩, h => by
    simp only [keeps] at h
    exact tupleIndex_kept (kept_of_keeps grouped h)
  | .index _ _ _, ⟨level, grouped, inner⟩, h => by
    simp only [keeps, Bool.and_eq_true, Bool.not_eq_true'] at h
    obtain ⟨⟨plain, keepsReceiver⟩, keepsInner⟩ := h
    exact index_kept (kept_of_keeps grouped keepsReceiver)
      (trailing_le_level grouped level plain) (kept_of_keeps inner keepsInner)
  | .member _ _ _ _, ⟨level, grouped⟩, h => by
    simp only [keeps, Bool.and_eq_true] at h
    obtain ⟨⟨receiver, named⟩, keeps⟩ := h
    exact member_kept (kept_of_keeps grouped keeps) grouped level receiver named
  | .call s fn _, ⟨level, grouped, rest⟩, h => by
    rcases call_cases info s fn with plain | ⟨m, x, name, accessor, c, rfl, found⟩
    · simp only [keeps_call plain, Bool.and_eq_true, Bool.not_eq_true'] at h
      obtain ⟨⟨unfronted, keeps⟩, keepsRest⟩ := h
      exact call_kept plain (kept_of_keeps grouped keeps)
        (trailing_le_level grouped level unfronted) (keptAll_of_keeps rest keepsRest)
    · simp only [keeps_extension found, Bool.and_eq_true] at h
      obtain ⟨⟨named, keeps⟩, keepsRest⟩ := h
      have noOperator := operator?_eq_none grouped.2 (Int.le_trans (by decide) grouped.1)
      exact extension_kept found named (kept_of_keeps grouped.2 keeps)
        (leading_le_level noOperator) (keptAll_of_keeps rest keepsRest)
  | .range _ _ _, _, h => by cases h
termination_by e => sizeOf e
-- only the call of a member needs the context, which slows down all others
decreasing_by all_goals first | (clear * -; simp; omega) | decreasing_tactic

theorem keptAll_of_keeps : ∀ {es : List Expr}, Expr.GroupedAll .source es →
    keepsAll info es = true → KeptAll info es
  | [], _, _ => .nil
  | _ :: _, ⟨first, rest⟩, h => by
    simp only [keepsAll, Bool.and_eq_true] at h
    exact .cons (kept_of_keeps first h.1) (keptAll_of_keeps rest h.2)
termination_by es => sizeOf es

end

/-- C++ takes the text of an expression that is read and keeps its operands for its tree. -/
theorem expr_keeps_grouping {src : String} {e : Expr} (read : Expr.read .default src = .ok e)
    (info : Info) (h : keeps info e = true) :
    ∃ text, expr info e = .ok text ∧ Cpp.Reads text (tree info e) := by
  obtain ⟨legible, text, done, spelt⟩ := kept_of_keeps (Expr.read_grouped read) h
  exact ⟨text, done, spelt, Cpp.read_forms legible⟩

/-- What resolution finds out about an expression where nothing is declared. -/
def infoOf? (e : Expr) : Option Info :=
  let place : Resolution.Place :=
    { table := .default, scope := SymbolTable.global, demand := fun _ => pure () }
  (Resolution.expr place e {}).toOption.map (·.2.info)

/-- An expression that resolves where nothing is declared. -/
def resolved? (src : String) : Option (Expr × Info) := do
  let e ← (Expr.read .default src).toOption
  let info ← infoOf? e
  return (e, info)

theorem resolved?_some {src : String} {e : Expr} {info : Info} (h : resolved? src = some (e, info)) :
    Expr.read .default src = .ok e := by
  obtain ⟨_, read, h⟩ := Option.bind_eq_some_iff.mp h
  obtain ⟨_, -, h⟩ := Option.bind_eq_some_iff.mp h
  cases h
  exact toOption_eq_some read

theorem expr_keeps_grouping_of_ternary :
    let src := "a = *p.f(-1, q as static W)[i++] && !(q as W*).m < 2 ? t.0 : -(-x)"
    ∃ e info text, resolved? src = some (e, info) ∧ expr info e = .ok text ∧
      Cpp.Reads text (tree info e) := by
  intro src
  have found : (resolved? src).any (fun (e, info) => keeps info e) = true := by
    rw [resolved?, Expr.read, Reader.run_ofList]
    decide +kernel
  obtain ⟨⟨e, info⟩, steps, here⟩ := (Option.any_eq_true _ _).mp found
  obtain ⟨text, done, reads⟩ := expr_keeps_grouping (resolved?_some steps) info here
  exact ⟨e, info, text, steps, done, reads⟩

/-- A member of a cast becomes a cast of a member. -/
theorem cast_loses_receiver :
    ∃ e info text, resolved? "p as W*.n" = some (e, info) ∧ expr info e = .ok text ∧
      Cpp.Reads text
        (.cast {} (.member {} (.paren {} (.ident {} "p")) "n" .arrow) .plain (.named {} "W*" [] 0)) ∧
      ¬ Cpp.Reads text (tree info e) := by
  let p : Expr := .ident {} "p"
  let other : Expr := .cast {} (.member {} (.paren {} p) "n" .arrow) .plain (.named {} "W*" [] 0)
  have legible : other.Legible Cpp.dialect := by
    constructor
    · exact ⟨rfl, rfl, trivial, trivial⟩
    · simp only [other, p, Expr.Grouped]
      decide
  have found : (resolved? "p as W*.n").any (fun (e, info) =>
      (expr info e).toOption == some "(W*)(p)->n" && (tree info e).forms == other.forms &&
        (tree info e).level Cpp.dialect == trailingLevel) = true := by
    rw [resolved?, Expr.read, Reader.run_ofList]
    decide +kernel
  have spelt : Cpp.Spells "(W*)(p)->n".toList other.forms := by
    have receiver : Cpp.Spells "p".toList p.forms := .word (f := ⟨.ident, "p"⟩) fun _ => by decide
    have type : Cpp.Spells "W*".toList [⟨.raw, "W*"⟩] := .word (f := ⟨.raw, "W*"⟩) fun h => nomatch h
    have member := member_spelt (t := .paren {} p) .arrow receiver.parenthesized (paren_apart .arrow)
      (show Cpp.isName "n" = true by decide)
    have text : "(W*)(p)->n" = "(" ++ "W*" ++ ")" ++
        ("(" ++ "p" ++ ")" ++ Accessor.arrow.operator.symbol ++ "n") := by
      decide
    have forms : other.forms = .op .openParen :: ([⟨.raw, "W*"⟩] ++ [.op .closeParen]) ++
        (Expr.member {} (.paren {} p) "n" .arrow).forms := by
      decide
    rw [text, forms]
    exact .before_bracket (by decide) type.parenthesized member
  obtain ⟨⟨e, info⟩, steps, here⟩ := (Option.any_eq_true _ _).mp found
  simp only [Bool.and_eq_true, beq_iff_eq] at here
  obtain ⟨⟨done, forms⟩, level⟩ := here
  refine ⟨e, info, _, steps, toOption_eq_some done, ⟨spelt, Cpp.read_forms legible⟩, fun reads => ?_⟩
  have same := congrArg (Expr.level Cpp.dialect) (reads.bare_eq legible forms)
  rw [Expr.level_bare, Expr.level_bare, level] at same
  exact absurd same (by decide)

end Emission

end TastyLang
