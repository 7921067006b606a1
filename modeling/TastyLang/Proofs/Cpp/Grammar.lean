import Mathlib.Data.List.Forall2
import TastyLang.Proofs.Reading.Climbing
import TastyLang.Text.Pieces

/-!
# How C++ groups an expression

`Cpp.read` reads the tokens of a C++ expression. What follows an operand binds tightest; then come
leading operators, casts in front, `new` and `delete`; then the levels of the binary operators, and
last assignments and the conditional as one level that groups to the right. A type is one token. What
`Expr.forms` writes down for a tree that is grouped by these levels is read back (`Cpp.read_forms`).
-/

namespace TastyLang

open Token (Form)

namespace Cpp

/-- The binary operators of C++ that generated code may have. -/
def operators : List Binding := [
  ⟨"*", 13, false⟩, ⟨"/", 13, false⟩, ⟨"%", 13, false⟩,
  ⟨"+", 12, false⟩, ⟨"-", 12, false⟩,
  ⟨"<<", 11, false⟩, ⟨">>", 11, false⟩,
  ⟨"<", 10, false⟩, ⟨">", 10, false⟩, ⟨"<=", 10, false⟩, ⟨">=", 10, false⟩,
  ⟨"==", 9, false⟩, ⟨"!=", 9, false⟩,
  ⟨"&", 8, false⟩, ⟨"^", 7, false⟩, ⟨"|", 6, false⟩,
  ⟨"&&", 5, false⟩, ⟨"||", 4, false⟩,
  ⟨"?", 2, true⟩, ⟨"=", 2, true⟩, ⟨"+=", 2, true⟩, ⟨"-=", 2, true⟩, ⟨"*=", 2, true⟩,
  ⟨"/=", 2, true⟩, ⟨"%=", 2, true⟩, ⟨"&=", 2, true⟩, ⟨"|=", 2, true⟩, ⟨"^=", 2, true⟩,
  ⟨"<<=", 2, true⟩, ⟨">>=", 2, true⟩]

/-- The language of C++ expressions. -/
def dialect : Dialect := ⟨⟨[], [], [], [], operators⟩, true⟩

theorem dialect_regular : dialect.Regular := by
  constructor <;> decide

open Reader

/-- Reads a type. -/
def typeWord : Reader TypeExpr := do
  let t ← current
  discard (expect .raw)
  return .named (← spanFrom t.pos) t.literal [] 0

section

variable (n : Nat) (expr : Reader Expr)

/-- Reads an operand with all that follows it. -/
def chain : Reader Expr := do iterate (suffix? n expr) n (← primary n expr)

/-- Reads an operand with the operators, casts and words in front of it and all that follows it. -/
def operand : Nat → Reader Expr
  | 0 => exhausted
  | k + 1 => do
    let t ← current
    match t.kind with
    | .op .openParen =>
      -- a type in parentheses is a cast
      if (← nextKind) == .raw then
        advance
        let type ← typeWord
        close .closeParen t
        let x ← operand k
        return .cast (← spanFrom t.pos) x .plain type
      chain n expr
    | .op o =>
      if isLeading o then
        advance
        let x ← operand k
        return .unary (← spanFrom t.pos) o x false
      chain n expr
    | .keyword .kDelete =>
      advance
      let x ← operand k
      return .delete (← spanFrom t.pos) x
    | .keyword .kNew =>
      advance
      let type ← typeWord
      let xs ← args n expr
      return .new (← spanFrom t.pos) type xs
    | _ => chain n expr

end

/-- Reads an expression whose operators bind at least as tightly as `least`. -/
def expressionFrom : Nat → Int → Reader Expr
  | 0, _ => exhausted
  | n + 1, least => do
    let start ← pos
    let expr := expressionFrom n
    let left ← operand n (expr 1) n
    iterate (infix? dialect.table expr start least) n left

/-- The expression that some tokens are. -/
def read (fs : List Form) : Except SyntaxError Expr := do
  let start : Cursor := { rest := fs.map fun f => ⟨f.kind, f.literal, {}⟩, stop := .ok {} }
  let reader : Reader Expr := do
    let e ← expressionFrom (fs.length + 1) 1
    discard (expect .eof)
    return e
  return (← StateT.run reader start).1

/-! ### Reading back -/

theorem chain_second {e : Expr} (h : Expr.Chain dialect e) (k : List Form)
    (opened : (Form.first (e.forms ++ k)).kind = .op .openParen) :
    (Form.first (e.forms ++ k).tail).kind.opens = true := by
  induction h generalizing k with
  | @primary e leaf legible =>
    have inner {x : Expr} (legible : x.Legible dialect) (k : List Form) :=
      (Expr.joined_of_legible dialect_regular legible.written legible.grouped).first k
    cases e with
    | paren s x =>
      simp only [Expr.forms, List.cons_append, List.tail_cons, List.append_assoc]
      exact @inner x ⟨legible.written, legible.grouped⟩ _
    | tuple s elems =>
      cases elems with
      | nil => exact absurd rfl legible.written.1
      | cons x xs =>
        rw [tuple_forms]
        simp only [List.cons_append, List.tail_cons, List.append_assoc]
        exact @inner x ⟨legible.written.2.1, legible.grouped.1⟩ _
    | literal s kind value =>
      cases kind <;> simp [Expr.forms, LiteralKind.form] at opened
    | ident | self => simp [Expr.forms, Form.keyword] at opened
    | _ => exact leaf.elim
  | call _ _ _ ih | index _ _ ih | member _ ih | tupleIndex _ _ ih | trailing _ _ ih =>
    rw [Expr.forms, List.append_assoc] at opened ⊢
    exact ih _ opened

variable {n : Nat} {expr : Int → Reader Expr} (reads : dialect.ReadsBelow n expr)

theorem typeWord_gives {type : TypeExpr} (word : Expr.IsWord type) (k : List Form) :
    Gives typeWord (⟨.raw, type.text⟩ :: k) (fun t => t.bare = type.bare) k := by
  refine gives_current fun p => .discard (expect_gives rfl) (gives_spanFrom fun s => .pure ?_)
  cases type with
  | named s name args stars =>
    cases args with
    | nil =>
      cases stars with
      | zero => simp [TypeExpr.text, TypeExpr.bare, Text.repeated]
      | succ => exact word.elim
    | cons => exact word.elim
  | _ => exact word.elim

include reads

theorem operand_gives {e : Expr} {k : List Form} (led : Expr.Led dialect e)
    (small : e.forms.length ≤ n) (stops : (Form.first k).kind.startsSuffix = false) {m : Nat}
    (steps : e.forms.length ≤ m) :
    Gives (operand n (expr 1) m) (e.forms ++ k) (fun x => x.bare = e.bare) k := by
  induction led generalizing m with
  | @chain e chained =>
    obtain ⟨m, rfl⟩ : ∃ j, m = j + 1 := ⟨m - 1, by have := e.forms_pos; omega⟩
    have first := chained.first k
    have second := chain_second chained k
    have gives : Gives (chain n (expr 1)) (e.forms ++ k) (fun x => x.bare = e.bare) k :=
      chained_gives dialect_regular reads chained small stops
    refine gives_current fun p => ?_
    dsimp only
    generalize kind_ : (Form.first (e.forms ++ k)).kind = kind at first second ⊢
    split
    · refine gives_nextKind ?_
      rw [if_neg]
      · exact gives
      · intro raw
        rw [eq_of_beq raw] at second
        cases second rfl
    · rw [if_neg (by simp [isLeading_of_opensPrimary first])]
      exact gives
    · cases first
    · cases first
    · exact gives
  | @leading s o x kind _ ih =>
    rw [Expr.forms, List.length_cons] at small steps
    obtain ⟨m, rfl⟩ : ∃ j, m = j + 1 := ⟨m - 1, by omega⟩
    refine gives_current fun p => ?_
    rw [Expr.forms]
    dsimp only [Form.op, List.cons_append, Form.first_cons]
    have notOpen : o ≠ .openParen := by
      rintro rfl
      cases kind
    simp only [kind, if_true]
    refine gives_advance (.bind (ih (by omega) (by omega)) fun y same => ?_)
    refine gives_spanFrom fun _ => .pure ?_
    rw [Expr.bare, same, Expr.bare]
  | @delete s x _ ih =>
    rw [Expr.forms, List.length_cons] at small steps
    obtain ⟨m, rfl⟩ : ∃ j, m = j + 1 := ⟨m - 1, by omega⟩
    refine gives_current fun p => gives_advance ?_
    refine .bind (ih (by omega) (by omega)) fun y same => gives_spanFrom fun _ => .pure ?_
    rw [Expr.bare, same, Expr.bare]
  | @cast s x type _ word _ ih =>
    simp only [Expr.forms, List.length_cons] at small steps
    obtain ⟨m, rfl⟩ : ∃ j, m = j + 1 := ⟨m - 1, by omega⟩
    rw [Expr.forms]
    refine gives_current fun p => gives_nextKind (gives_advance ?_)
    refine .bind (typeWord_gives word _) fun t type_ => gives_close rfl ?_
    refine .bind (ih (by omega) (by omega)) fun y same => gives_spanFrom fun _ => .pure ?_
    rw [Expr.bare, same, type_, Expr.bare]
  | @new s type args _ word written grouped =>
    simp only [Expr.forms, List.length_cons, List.length_append] at small steps
    obtain ⟨m, rfl⟩ : ∃ j, m = j + 1 := ⟨m - 1, by omega⟩
    simp only [Expr.forms, List.cons_append, List.append_assoc, List.nil_append]
    refine gives_current fun p => gives_advance ?_
    refine .bind (typeWord_gives word _) fun t type_ => ?_
    refine .bind (args_gives dialect_regular reads (by omega) written grouped) fun xs same => ?_
    refine gives_spanFrom fun _ => .pure ?_
    rw [Expr.bare, same, type_, Expr.bare]

omit reads

theorem expressionFrom_restores (n : Nat) : dialect.ReadsBelow n (expressionFrom n) := by
  induction n with
  | zero => exact fun e least k small => absurd small (Nat.not_lt_zero _)
  | succ n ih =>
    intro e least k small legible le stops
    refine gives_pos fun start => ?_
    have small := Nat.le_of_lt_succ small
    refine climb_gives dialect_regular ih (fun led small stops => ?_) legible small le stops
    exact operand_gives ih led small stops small

theorem read_forms {t : Expr} (legible : t.Legible dialect) :
    ∃ t', read t.forms = .ok t' ∧ t'.bare = t.bare := by
  let start : Cursor := { rest := t.forms.map fun f => ⟨f.kind, f.literal, {}⟩, stop := .ok {} }
  have holds : start.Holds (t.forms ++ []) := by
    refine ⟨?_, _, rfl⟩
    simp [start, Token.form, Function.comp_def]
  have gives : Gives (expressionFrom (t.forms.length + 1) 1 >>= fun e =>
      discard (expect .eof) >>= fun _ => pure e) (t.forms ++ []) (fun x => x.bare = t.bare) [] := by
    refine .bind (expressionFrom_restores _ (Nat.lt_succ_self _) legible
      (Expr.one_le_level dialect_regular legible.grouped) (Dialect.stops_nil 1)) fun x same => ?_
    exact .discard (expect_gives rfl) (.pure same)
  obtain ⟨t', c, done, -, same⟩ := gives start holds
  refine ⟨t', ?_, same⟩
  show (StateT.run _ start >>= fun r => pure r.1) = _
  rw [show StateT.run _ start = _ from done]
  rfl

end Cpp

/-! ## Texts of C++ tokens

The scanner of C++ takes the longest token it can. Two tokens may therefore stand together without
a blank only if the first one does not go on into the second (`Cpp.apart`). `Cpp.Spells` says that a
text is made of given tokens with blanks where they are needed, and `Cpp.Reads` that C++ takes a
text for a tree.
-/

namespace Cpp

/-! ### Neighbours -/

/-- The words that are operators. -/
def operatorWords : List String :=
  ["alignof", "and", "and_eq", "bitand", "bitor", "co_await", "co_yield", "compl", "delete", "new",
    "noexcept", "not", "not_eq", "or", "or_eq", "sizeof", "throw", "typeid", "xor", "xor_eq"]

/-- The words that are types. -/
def typeWords : List String :=
  ["auto", "bool", "char", "char8_t", "char16_t", "char32_t", "double", "float", "int", "long",
    "short", "signed", "unsigned", "void", "wchar_t"]

/-- Whether a word can be a name among operators. -/
def isName (word : String) : Bool := !operatorWords.contains word

/-- The marks of more than one sign, and what starts a comment. -/
def longMarks : List String :=
  ["<=>", "<<=", ">>=", "->*", "...", "<=", ">=", "==", "!=", "&&", "||", "++", "--", "+=", "-=",
    "*=", "/=", "%=", "&=", "|=", "^=", "<<", ">>", "->", ".*", "::", "<:", ":>", "<%", "%>", "%:",
    "%:%:", "##", "//", "/*"]

/-- Whether an operator ends in front of another one: no longer mark starts there. -/
def operatorApart (o o' : Operator) : Bool :=
  let first := o.symbol.toList
  let both := first ++ o'.symbol.toList
  longMarks.all fun m =>
    !(first.length < m.toList.length && (m.toList.isPrefixOf both || both.isPrefixOf m.toList))

/-- Whether a numeral ends in front of an operator. It goes on over a dot, and over a sign behind
the letter of an exponent. -/
def numeralApart (value : String) (o : Operator) : Bool :=
  match o.symbol.toList.head? with
  | some '.' => false
  | some '+' | some '-' => value.toList.getLast?.all fun c => c ∉ ['e', 'E', 'p', 'P']
  | _ => true

/-- Whether a token ends in front of another one without a blank in between. -/
def apart (f g : Form) : Bool :=
  match f.kind, g.kind with
  | .op o, .op o' => operatorApart o o'
  | .op o, .number => o != .dot
  | .op _, _ => true
  | .number, .op o => numeralApart f.literal o
  | _, .op _ => true
  | _, _ => false

theorem operatorApart_of_sign {o o' : Operator} {i : Nat} {c : Char}
    (foreign : ∀ m ∈ longMarks, c ∉ m.toList) (le : i ≤ o.symbol.toList.length)
    (sign : (o.symbol.toList ++ o'.symbol.toList)[i]? = some c) : operatorApart o o' = true := by
  refine List.all_eq_true.mpr fun m member => ?_
  simp only [Bool.not_eq_true', Bool.and_eq_false_imp, decide_eq_true_eq, Bool.or_eq_false_iff]
  intro longer
  have absent := foreign m member
  constructor
  · refine eq_false_of_ne_true fun start => absent ?_
    have same := List.prefix_iff_getElem?.mp (List.isPrefixOf_iff_prefix.mp start) i (by omega)
    exact Option.some.inj (same.symm.trans sign) ▸ List.getElem_mem _
  · refine eq_false_of_ne_true fun start => absent ?_
    obtain ⟨inside, here⟩ := List.getElem?_eq_some_iff.mp sign
    have same := List.prefix_iff_getElem?.mp (List.isPrefixOf_iff_prefix.mp start) i inside
    exact List.mem_of_getElem? (here ▸ same)

/-- The marks that never belong to what stands in front of them. -/
def brackets : List Operator := [.openParen, .closeParen, .openBracket, .closeBracket, .comma]

theorem operatorApart_bracket {o : Operator} (h : o ∈ brackets) (o' : Operator) :
    operatorApart o o' = true ∧ operatorApart o' o = true := by
  have foreign : ∀ o ∈ brackets, ∃ c, o.symbol.toList = [c] ∧ ∀ m ∈ longMarks, c ∉ m.toList := by
    simp only [brackets, List.forall_mem_cons]
    exact ⟨⟨'(', by decide⟩, ⟨')', by decide⟩, ⟨'[', by decide⟩,
      ⟨']', by decide⟩, ⟨',', by decide⟩, nofun⟩
  obtain ⟨c, symbol, foreign⟩ := foreign o h
  constructor
  · exact operatorApart_of_sign (i := 0) foreign (Nat.zero_le _) (by simp [symbol])
  · exact operatorApart_of_sign foreign (Nat.le_refl _) (by simp [symbol])

theorem numeralApart_bracket {o : Operator} (h : o ∈ brackets) (value : String) :
    numeralApart value o = true ∧ (o != .dot) = true := by
  simp only [brackets, List.mem_cons, List.not_mem_nil, or_false] at h
  rcases h with rfl | rfl | rfl | rfl | rfl <;> exact ⟨rfl, rfl⟩

theorem apart_bracket (f : Form) {o : Operator} (h : o ∈ brackets) : apart f (.op o) = true := by
  obtain ⟨kind, literal⟩ := f
  cases kind with
  | op o' => exact (operatorApart_bracket h o').2
  | number => exact (numeralApart_bracket h literal).1
  | _ => rfl

theorem bracket_apart {o : Operator} (h : o ∈ brackets) (g : Form) : apart (.op o) g = true := by
  obtain ⟨kind, literal⟩ := g
  cases kind with
  | op o' => exact (operatorApart_bracket h o').1
  | number => exact (numeralApart_bracket h literal).2
  | _ => rfl

/-! ### Texts -/

/-- A text is made of tokens of the forms `fs`, each of which ends where the next one starts. -/
inductive Spells : List Char → List Form → Prop where
  | done : Spells [] []
  | blank {cs fs} : Spells cs fs → Spells (' ' :: cs) fs
  | token {f cs fs} : (f.kind = .ident → isName f.literal = true) →
      (cs.head? = some ' ' ∨ fs = [] ∨ apart f (Form.first fs) = true) → Spells cs fs →
      Spells (f.literal.toList ++ cs) (f :: fs)

namespace Spells

variable {a b : List Char} {fs gs : List Form}

theorem blank_of_nil (h : Spells a []) : a = [] ∨ a.head? = some ' ' := by
  cases h with
  | done => exact .inl rfl
  | blank => exact .inr rfl

theorem append (first : Spells a fs) (second : Spells b gs)
    (meet : b.head? = some ' ' ∨ gs = [] ∨ ∀ f ∈ fs.getLast?, apart f (Form.first gs) = true) :
    Spells (a ++ b) (fs ++ gs) := by
  induction first with
  | done => exact second
  | blank _ ih => exact .blank (ih meet)
  | @token f cs fs named here rest ih =>
    rw [List.append_assoc]
    cases fs with
    | nil =>
      refine .token named ?_ (ih (.inr (.inr nofun)))
      rcases rest.blank_of_nil with rfl | blank
      · rcases meet with blank | none | meet
        · exact .inl blank
        · exact .inr (.inl none)
        · exact .inr (.inr (meet f rfl))
      · exact .inl (by rw [List.head?_append, blank]; rfl)
    | cons g fs =>
      refine .token named ?_ (ih ?_)
      · rcases here with blank | none | here
        · exact .inl (by rw [List.head?_append, blank]; rfl)
        · cases none
        · exact .inr (.inr here)
      · rwa [List.getLast?_cons_cons] at meet

theorem word {f : Form} (named : f.kind = .ident → isName f.literal = true) :
    Spells f.literal.toList [f] := by
  simpa using token named (.inr (.inl rfl)) done

theorem operator (o : Operator) : Spells o.symbol.toList [.op o] :=
  word (f := .op o) fun h => nomatch h

theorem behind_op {o : Operator} {a : String} (rest : Spells a.toList fs)
    (meet : apart (.op o) (Form.first fs) = true) :
    Spells (o.symbol ++ a).toList (.op o :: fs) := by
  rw [String.toList_append]
  exact token (f := .op o) (fun h => nomatch h) (.inr (.inr meet)) rest

theorem spaced {a b : String} (first : Spells a.toList fs) (second : Spells b.toList gs) :
    Spells (a ++ " " ++ b).toList (fs ++ gs) := by
  rw [String.toList_append, String.toList_append, List.append_assoc]
  exact first.append (.blank second) (.inl rfl)

theorem before_bracket {a b : String} {o : Operator} (h : o ∈ brackets)
    (first : Spells a.toList fs) (second : Spells b.toList (.op o :: gs)) :
    Spells (a ++ b).toList (fs ++ .op o :: gs) := by
  rw [String.toList_append]
  exact first.append second (.inr (.inr fun f _ => apart_bracket f h))

theorem bracketed {o p : Operator} (h : o ∈ brackets) (h' : p ∈ brackets)
    {a : String} (inner : Spells a.toList fs) :
    Spells (o.symbol ++ a ++ p.symbol).toList (.op o :: (fs ++ [.op p])) := by
  rw [String.append_assoc]
  exact behind_op (before_bracket h' inner (operator p)) (bracket_apart h _)

theorem joined {xs : List String} {ts : List Expr}
    (each : List.Forall₂ (fun x t => Spells x.toList t.forms) xs ts) :
    Spells (Text.join ", " xs).toList (Expr.formsOf ts) := by
  induction each with
  | nil => exact done
  | @cons x t xs ts first rest ih =>
    cases rest with
    | nil => simpa [Text.join, Expr.formsOf] using first
    | @cons y u ys us second rest =>
      rw [Text.join, String.append_assoc]
      · refine before_bracket (o := .comma) (by decide) first ?_
        rw [String.toList_append]
        exact token (f := .op .comma) (by rintro ⟨⟩) (.inl rfl) (.blank ih)
      · exact List.cons_ne_nil _ _

theorem parenthesized {a : String} (inner : Spells a.toList fs) :
    Spells ("(" ++ a ++ ")").toList (.op .openParen :: (fs ++ [.op .closeParen])) :=
  bracketed (o := .openParen) (p := .closeParen) (by decide) (by decide) inner

theorem subscripted {a b : String} (first : Spells a.toList fs) (inner : Spells b.toList gs) :
    Spells (a ++ "[" ++ b ++ "]").toList (fs ++ .op .openBracket :: (gs ++ [.op .closeBracket])) := by
  have text : Spells ("[" ++ b ++ "]").toList (.op .openBracket :: (gs ++ [.op .closeBracket])) :=
    bracketed (o := .openBracket) (p := .closeBracket) (by decide) (by decide) inner
  simpa only [String.append_assoc] using before_bracket (by decide) first text

theorem called {a : String} {xs : List String} {ts : List Expr} (fn : Spells a.toList fs)
    (each : List.Forall₂ (fun x t => Spells x.toList t.forms) xs ts) :
    Spells (a ++ "(" ++ Text.join ", " xs ++ ")").toList
      (fs ++ .op .openParen :: (Expr.formsOf ts ++ [.op .closeParen])) := by
  have text := before_bracket (by decide) fn (parenthesized (joined each))
  simpa only [String.append_assoc] using text

end Spells

/-- C++ takes a text for a tree: the text is made of the tokens of the tree, and C++ groups them as
the tree does. -/
def Reads (text : String) (t : Expr) : Prop :=
  Spells text.toList t.forms ∧ ∃ t', read t.forms = .ok t' ∧ t'.bare = t.bare

theorem Reads.bare_eq {text : String} {t u : Expr} (h : Reads text t) (legible : u.Legible dialect)
    (same : t.forms = u.forms) : t.bare = u.bare := by
  obtain ⟨-, t', read, bare⟩ := h
  obtain ⟨u', read', bare'⟩ := read_forms legible
  rw [same, read'] at read
  cases read
  exact bare.symm.trans bare'

end Cpp

end TastyLang
