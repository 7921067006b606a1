import TastyLang.Proofs.Reading.Grouping
import TastyLang.Reading.Declarations
import TastyLang.Syntax.Nodes

/-!
# Phrases

The grammar of a file, one production at a time. A `Phrase` is anything in the tree that has a span;
a production (`Phrase.Made`) says of which tokens and smaller phrases it is made, in the order of
the text. `Phrase.Built` follows the productions down to the tokens. What a phrase's span has to do
with its tokens is said by `Phrase.Marked`: it reaches from the first of them to the last, except
that the span of a member access leaves its name out.

Attributes stand in front of a declaration and are no part of it.
-/

namespace TastyLang

/-- What has a span in the tree of a file. -/
inductive Phrase where
  | node (n : Node)
  | param (p : Param)
  | enumerator (m : EnumMember)
  | use (u : AttributeUse)

/-- A piece of a production: a token of some kind, a token with a literal, or a smaller phrase. -/
inductive Piece where
  | sign (k : Token.Kind)
  | word (k : Token.Kind) (literal : String)
  | part (p : Phrase)

def Phrase.span : Phrase → Span
  | node n => n.span
  | param p => p.span
  | enumerator m => m.span
  | use u => u.span

/-! ### Parts -/

theorem TypeExpr.nodesOf_eq (ts : List TypeExpr) : TypeExpr.nodesOf ts = ts.flatMap nodes := by
  induction ts with
  | nil => rfl
  | cons t ts ih => rw [TypeExpr.nodesOf, ih, List.flatMap_cons]

theorem Expr.nodesOf_eq (es : List Expr) : Expr.nodesOf es = es.flatMap nodes := by
  induction es with
  | nil => rfl
  | cons e es ih => rw [Expr.nodesOf, ih, List.flatMap_cons]

theorem Stmt.nodesOf_eq (ss : List Stmt) : Stmt.nodesOf ss = ss.flatMap nodes := by
  induction ss with
  | nil => rfl
  | cons s ss ih => rw [Stmt.nodesOf, ih, List.flatMap_cons]

theorem Decl.nodesOf_eq (ds : List Decl) : Decl.nodesOf ds = ds.flatMap nodes := by
  induction ds with
  | nil => rfl
  | cons d ds ih => rw [Decl.nodesOf, ih, List.flatMap_cons]

/-- The node that a statement is. -/
def Stmt.node : Stmt → Node
  | .block b => .block b
  | s => .stmt s

def Item.node : Item → Node
  | .var d => .var d
  | .func f => .func f
  | .enum d => .enum d
  | .inject info _ => .inject info

def Decl.node : Decl → Node
  | .item i => i.node
  | d => .decl d

/-- A declaration with the attributes in front of it. -/
def DeclInfo.phrases (info : DeclInfo) (n : Node) : List Phrase := info.attrs.map .use ++ [.node n]

def FuncDecl.phrases (f : FuncDecl) : List Phrase := f.info.phrases (.func f)
def Item.phrases (i : Item) : List Phrase := i.info.phrases i.node
def Decl.phrases (d : Decl) : List Phrase := d.info.phrases d.node

theorem Reader.asMethod_info (f : FuncDecl) : (asMethod f).info = f.info := by
  unfold asMethod
  split <;> rfl

namespace Phrase

def type (t : TypeExpr) : Phrase := node (.type t)
def expr (e : Expr) : Phrase := node (.expr e)
def stmt (s : Stmt) : Phrase := node s.node
def block (b : Block) : Phrase := node (.block b)

end Phrase

def TypeExpr.parts : TypeExpr → List Phrase
  | .named _ _ args _ => args.map .type
  | .tuple _ elems _ => elems.map .type
  | .func _ params result _ => params.map .type ++ (result.map .type).toList

def Expr.parts : Expr → List Phrase
  | .literal _ _ _ | .ident _ _ | .self _ => []
  | .binary _ _ l r => [.expr l, .expr r]
  | .unary _ _ x _ | .member _ x _ _ | .delete _ x | .tupleIndex _ x _ | .paren _ x => [.expr x]
  | .call _ fn args => .expr fn :: args.map .expr
  | .index _ x i => [.expr x, .expr i]
  | .new _ t args => .type t :: args.map .expr
  | .cast _ x _ t => [.expr x, .type t]
  | .tuple _ elems => elems.map .expr
  | .range _ low high => [.expr low, .expr high]
  | .ternary _ c y n => [.expr c, .expr y, .expr n]

def VarDecl.parts (d : VarDecl) : List Phrase :=
  (d.type.map .type).toList ++ (d.value.map .expr).toList

def Stmt.parts : Stmt → List Phrase
  | .block b => b.stmts.map .stmt
  | .expr _ x => [.expr x]
  | .decl _ d => [.node (.var d)]
  | .branch _ _ cond yes no => .expr cond :: .block yes :: (no.map .stmt).toList
  | .loop _ _ cond body => (cond.map .expr).toList ++ [.block body]
  | .count _ _ _ low high step body =>
    .expr low :: .expr high :: (step.map .expr).toList ++ [.block body]
  | .each _ _ _ items body => [.expr items, .block body]
  | .ret _ value _ _ _ => (value.map .expr).toList
  | .brk _ _ | .cont _ _ | .inject _ _ => []

def FuncDecl.parts (f : FuncDecl) : List Phrase :=
  f.params.map .param ++ (f.result.map .type).toList ++ (f.body.map .block).toList

def Decl.parts : Decl → List Phrase
  | .item _ | .includes _ _ _ _ | .assume _ _ _ => []
  | .scope _ _ ds => ds.flatMap phrases
  | .cls _ _ bases items => bases.map .type ++ items.flatMap Item.phrases
  | .abstraction _ _ target fs | .refurbish _ target fs => .type target :: fs.flatMap FuncDecl.phrases
  | .attributeDef _ _ _ us => us.map .use

def Node.parts : Node → List Phrase
  | file f => f.decls.flatMap Decl.phrases
  | decl d => d.parts
  | var d => d.parts
  | func f => f.parts
  | enum d => d.members.map .enumerator
  | inject _ => []
  | type t => t.parts
  | block b => b.stmts.map .stmt
  | stmt s => s.parts
  | expr e => e.parts

/-- The phrases that a phrase is made of, in the order of the text. -/
def Phrase.parts : Phrase → List Phrase
  | node n => n.parts
  | param p => .type p.type :: (p.value.map .expr).toList
  | enumerator m => (m.value.map .expr).toList
  | use _ => []

/-- `q` is `p` or a phrase inside of it. -/
inductive Phrase.Within (q : Phrase) : Phrase → Prop where
  | self : Within q q
  | part {p r : Phrase} : r ∈ p.parts → Within q r → Within q p

/-! ### Productions -/

namespace Piece

def op (o : Operator) : Piece := sign (.op o)
def key (k : Keyword) : Piece := sign (.keyword k)
def name (x : String) : Piece := word .ident x
def expr (e : Expr) : Piece := part (.expr e)
def type (t : TypeExpr) : Piece := part (.type t)
def stmt (s : Stmt) : Piece := part (.stmt s)
def block (b : Block) : Piece := part (.block b)

def part? : Piece → Option Phrase
  | part p => some p
  | _ => none

/-- Something that may be missing, behind the token that announces it. -/
def led (lead : Piece) : Option Piece → List Piece
  | some p => [lead, p]
  | none => []

def stars (k : Nat) : List Piece := List.replicate k (op .star)

/-- Pieces with commas between them; a comma may stand after the last one. -/
inductive Commas : List Piece → List Piece → Prop where
  | nil : Commas [] []
  | last {p : Piece} : Commas [p] [p]
  | more {p : Piece} {ps w : List Piece} : Commas ps w → Commas (p :: ps) (p :: op .comma :: w)

/-- At least one piece, with commas between them only. -/
inductive Row : List Piece → List Piece → Prop where
  | last {p : Piece} : Row [p] [p]
  | more {p : Piece} {ps w : List Piece} : Row ps w → Row (p :: ps) (p :: op .comma :: w)

/-- A name with dots. -/
inductive Dots : String → List Piece → Prop where
  | word {x : String} : Dots x [name x]
  | dot {x y : String} {w : List Piece} : Dots x w → Dots (x ++ "." ++ y) (w ++ [op .dot, name y])

/-- Pieces one after the other; `good` says which pieces one thing is written with. -/
inductive Each {α : Type} (good : α → List Piece → Prop) : List α → List Piece → Prop where
  | nil : Each good [] []
  | cons {x : α} {xs : List α} {v w : List Piece} : good x v → Each good xs w →
      Each good (x :: xs) (v ++ w)

def braced (w : List Piece) : List Piece := op .openBrace :: w ++ [op .closeBrace]

def bracketed (w : List Piece) : List Piece := op .openParen :: w ++ [op .closeParen]

end Piece

open Piece

/-- The template arguments behind a name, if there are any. -/
inductive TypeExpr.Angled : List TypeExpr → List Piece → Prop where
  | none : Angled [] []
  | some {args : List TypeExpr} {w : List Piece} : Row (args.map Piece.type) w →
      Angled args (op .less :: w ++ [op .greater])

inductive TypeExpr.Made : TypeExpr → List Piece → Prop where
  | number {s : Span} {x : String} : Made (.named s x [] 0) [word .number x]
  | named {s : Span} {x : String} {args : List TypeExpr} {k : Nat} {v w : List Piece} :
      Dots x v → Angled args w → Made (.named s x args k) (v ++ w ++ Piece.stars k)
  | tuple {s : Span} {elems : List TypeExpr} {k : Nat} {w : List Piece} :
      Commas (elems.map Piece.type) w → Made (.tuple s elems k) (bracketed w ++ Piece.stars k)
  | func {s : Span} {params : List TypeExpr} {result : Option TypeExpr} {k : Nat}
      {w : List Piece} : Commas (params.map Piece.type) w →
      Made (.func s params result k)
        (key .kFn :: bracketed w ++ led (op .arrow) (result.map Piece.type) ++ Piece.stars k)

/-- The kinds of token that a literal may be. -/
def LiteralKind.kinds : LiteralKind → List Token.Kind
  | int | float => [.number]
  | string => [.string]
  | char => [.character]
  | bool => [.keyword .kTrue, .keyword .kFalse]
  | null => [.keyword .kNull]

def CastKind.pieces : CastKind → List Piece
  | plain => []
  | static => [sign (.modifier .static)]
  | dynamic => [Piece.name "dynamic"]
  | reinterpret => [Piece.name "reinterpret"]

inductive Expr.Made : Expr → List Piece → Prop where
  | literal {s : Span} {kind : LiteralKind} {value : String} {k : Token.Kind} :
      k ∈ kind.kinds → Made (.literal s kind value) [word k value]
  | ident {s : Span} {x : String} : Made (.ident s x) [Piece.name x]
  | self {s : Span} : Made (.self s) [key .kSelf]
  | binary {s : Span} {o : Operator} {l r : Expr} : o ≠ .range →
      Made (.binary s o l r) [Piece.expr l, op o, Piece.expr r]
  | leading {s : Span} {o : Operator} {x : Expr} : Reader.isLeading o = true →
      Made (.unary s o x false) [op o, Piece.expr x]
  | trailing {s : Span} {o : Operator} {x : Expr} : o = .increment ∨ o = .decrement →
      Made (.unary s o x true) [Piece.expr x, op o]
  | call {s : Span} {fn : Expr} {args : List Expr} {w : List Piece} :
      Commas (args.map Piece.expr) w → Made (.call s fn args) (Piece.expr fn :: bracketed w)
  | member {s : Span} {x : Expr} {name : String} {accessor : Accessor} {k : Token.Kind} :
      k = .ident ∨ k.isReserved = true →
      Made (.member s x name accessor) [Piece.expr x, op accessor.operator, word k name]
  | index {s : Span} {x i : Expr} :
      Made (.index s x i) [Piece.expr x, op .openBracket, Piece.expr i, op .closeBracket]
  | new {s : Span} {t : TypeExpr} : Made (.new s t []) [key .kNew, Piece.type t]
  | newWith {s : Span} {t : TypeExpr} {args : List Expr} {w : List Piece} :
      Commas (args.map Piece.expr) w →
      Made (.new s t args) (key .kNew :: Piece.type t :: bracketed w)
  | delete {s : Span} {x : Expr} : Made (.delete s x) [key .kDelete, Piece.expr x]
  | cast {s : Span} {x : Expr} {kind : CastKind} {t : TypeExpr} :
      Made (.cast s x kind t) (Piece.expr x :: key .kAs :: kind.pieces ++ [Piece.type t])
  | tuple {s : Span} {first : Expr} {more : List Expr} {w : List Piece} :
      Commas (more.map Piece.expr) w →
      Made (.tuple s (first :: more)) (bracketed (Piece.expr first :: op .comma :: w))
  | tupleIndex {s : Span} {x : Expr} {i : Nat} :
      Made (.tupleIndex s x i) [Piece.expr x, op .dot, sign .number]
  | range {s : Span} {low high : Expr} :
      Made (.range s low high) [Piece.expr low, op .range, Piece.expr high]
  | ternary {s : Span} {c y n : Expr} :
      Made (.ternary s c y n)
        [Piece.expr c, op .question, Piece.expr y, op .colon, Piece.expr n]
  | paren {s : Span} {x : Expr} : Made (.paren s x) (bracketed [Piece.expr x])

/-- The words that a set of modifiers was written with. -/
def Modifiers.Made (ms : Modifiers) (w : List Piece) : Prop :=
  ∃ words : List Modifier, ms = words.foldl insert {} ∧ w = words.map fun m => sign (.modifier m)

/-- The word that a storage was written with. -/
def Storage.Made (s : Storage) (w : List Piece) : Prop :=
  ∃ t, ofToken? t = some s ∧ w = [Piece.word t.kind t.literal]

/-- The word that a storage was written with, if one was. -/
def Storage.Given (s : Storage) (w : List Piece) : Prop := s.Made w ∨ s = {} ∧ w = []

inductive VarDecl.Made : VarDecl → List Piece → Prop where
  | mk {d : VarDecl} {u v : List Piece} : d.info.modifiers.Made u → d.storage.Made v →
      Made d (u ++ v ++ [Piece.name d.name] ++ led (op .colon) (d.type.map Piece.type)
        ++ led (op .assign) (d.value.map Piece.expr) ++ [op .semicolon])

def CountKind.keyword : CountKind → Keyword
  | inc => .kInc | incto => .kIncto | dec => .kDec | decto => .kDecto

/-- A captured text, and a semicolon that may stand behind it. -/
inductive Piece.Captured : String → List Piece → Prop where
  | bare {text : String} : Captured text [key .kInject, word .raw text]
  | ended {text : String} : Captured text [key .kInject, word .raw text, op .semicolon]

inductive Stmt.Made : Stmt → List Piece → Prop where
  | expr {s : Span} {x : Expr} : Made (.expr s x) [Piece.expr x, op .semicolon]
  | decl {s : Span} {d : VarDecl} : Made (.decl s d) [part (.node (.var d))]
  | branch {s : Span} {negate : Bool} {cond : Expr} {yes : Block} {no : Option Stmt} :
      Made (.branch s negate cond yes no)
        (key (if negate then .kUnless else .kIf) :: Piece.expr cond :: Piece.block yes
          :: led (key .kElse) (no.map Piece.stmt))
  | forever {s : Span} {body : Block} :
      Made (.loop s false none body) [key .kLoop, Piece.block body]
  | loop {s : Span} {negate : Bool} {cond : Expr} {body : Block} :
      Made (.loop s negate (some cond) body)
        [key (if negate then .kUntil else .kWhile), Piece.expr cond, Piece.block body]
  | count {s : Span} {kind : CountKind} {x : String} {low high : Expr} {step : Option Expr}
      {body : Block} :
      Made (.count s kind x low high step body)
        ([key kind.keyword, Piece.name x, Piece.name "from", Piece.expr low, Piece.name "to",
          Piece.expr high] ++ led (Piece.name "by") (step.map Piece.expr) ++ [Piece.block body])
  | each {s : Span} {x : String} {storage : Storage} {items : Expr} {body : Block}
      {w : List Piece} : storage.Given w →
      Made (.each s x storage items body)
        (key .kFor :: w ++ [Piece.name x, Piece.name "in", Piece.expr items, Piece.block body])
  | ret {s : Span} {value : Option Expr} {effect : Bool} {exit : Option Exit} :
      Made (.ret s value false effect exit)
        (key .kReturn :: (value.map Piece.expr).toList ++ [op .semicolon])
  | trailing {s : Span} {x : Expr} {effect : Bool} {exit : Option Exit} :
      Made (.ret s (some x) true effect exit) [Piece.expr x]
  | brk {s : Span} {exit : Option Exit} : Made (.brk s exit) [key .kBreak, op .semicolon]
  | cont {s : Span} {exit : Option Exit} : Made (.cont s exit) [key .kContinue, op .semicolon]
  | inject {s : Span} {text : String} {w : List Piece} : Captured text w → Made (.inject s text) w

inductive Param.Made : Param → List Piece → Prop where
  | mk {p : Param} {w : List Piece} : p.storage.Given w →
      Made p (w ++ [Piece.name p.name, op .colon, Piece.type p.type]
        ++ led (op .assign) (p.value.map Piece.expr))

/-- How a function is named: by a name, or by `operator` and the symbols of one. -/
inductive FuncKind.Titled : FuncKind → String → List Piece → Prop where
  | name {kind : FuncKind} {x : String} : (∀ symbol, kind ≠ .operator symbol) →
      Titled kind x [Piece.name x]
  | operator {os : List Operator} :
      Titled (.operator (String.join (os.map Operator.symbol))) "operator"
        (key .kOperator :: os.map op)

inductive FuncDecl.Made : FuncDecl → List Piece → Prop where
  | mk {f : FuncDecl} {u v w : List Piece} : f.info.modifiers.Made u → f.kind.Titled f.name v →
      Commas (f.params.map fun p => part (.param p)) w →
      Made f (u ++ key .kFn :: v ++ bracketed w
        ++ (if f.constant then [sign (.modifier .const)] else [])
        ++ led (op .arrow) (f.result.map Piece.type)
        ++ [(f.body.map Piece.block).getD (op .semicolon)])

inductive EnumDecl.Made : EnumDecl → List Piece → Prop where
  | mk {d : EnumDecl} {u w : List Piece} : d.info.modifiers.Made u →
      Commas (d.members.map fun m => part (.enumerator m)) w →
      Made d (u ++ [key .kEnum, Piece.name d.name] ++ braced w)

/-- The arguments of an attribute may be any tokens. -/
inductive AttributeUse.Made : AttributeUse → List Piece → Prop where
  | bare {u : AttributeUse} : Made u [op .atSign, Piece.name u.name]
  | applied {u : AttributeUse} {ks : List Token.Kind} :
      Made u ([op .atSign, Piece.name u.name] ++ bracketed (ks.map sign))

/-- The word in front of a path that says where it is looked for. -/
def Piece.localities : List (List Piece) := [[], [Piece.name "local"], [Piece.name "system"]]

/-- A path, in quotes or token by token. -/
inductive Piece.Path : String → List Piece → Prop where
  | quoted {literal : String} : Path (Reader.unquoted literal) [word .string literal]
  | bare {words : List (Token.Kind × String)} :
      Path (String.join (words.map Prod.snd)) (words.map fun t => word t.1 t.2)

def IncludeKind.keyword : IncludeKind → Keyword
  | header => .kInclude | contained => .kContain | imported => .kImport | derived => .kDerive

inductive TypeExpr.Extended : List TypeExpr → List Piece → Prop where
  | none : Extended [] []
  | some {bases : List TypeExpr} {w : List Piece} : Row (bases.map Piece.type) w →
      Extended bases (Piece.name "extends" :: w)

/-- A use of an attribute inside of a definition. -/
def AttributeUse.Listed (u : AttributeUse) (w : List Piece) : Prop :=
  w = [part (.use u)] ∨ w = [part (.use u), op .semicolon]

/-- The parameters of an attribute, if it has any. -/
def Piece.Names (xs : List String) (w : List Piece) : Prop :=
  (xs = [] ∧ w = []) ∨ ∃ v, Commas (xs.map Piece.name) v ∧ w = bracketed v

inductive Decl.Made : Decl → List Piece → Prop where
  | includes {info : DeclInfo} {kind : IncludeKind} {path : String} {isLocal : Bool}
      {u v w : List Piece} : info.modifiers.Made u → v ∈ localities → Path path w →
      Made (.includes info kind path isLocal)
        (u ++ key kind.keyword :: v ++ w ++ [op .semicolon])
  | assume {info : DeclInfo} {x : String} {kind : AssumeKind} {k : Token.Kind} {u w : List Piece} :
      info.modifiers.Made u → Dots x w →
      Made (.assume info x kind)
        (u ++ key .kAssume :: w ++ [Piece.name "is", word k kind.word, op .semicolon])
  | scope {info : DeclInfo} {x : String} {ds : List Decl} {u : List Piece} :
      info.modifiers.Made u →
      Made (.scope info x ds) (u ++ [key .kNamespace, Piece.name x]
        ++ braced ((ds.flatMap phrases).map part))
  | cls {info : DeclInfo} {x : String} {bases : List TypeExpr} {items : List Item}
      {u w : List Piece} : info.modifiers.Made u → TypeExpr.Extended bases w →
      Made (.cls info x bases items) (u ++ [key .kClass, Piece.name x] ++ w
        ++ braced ((items.flatMap Item.phrases).map part))
  | abstraction {info : DeclInfo} {x : String} {target : TypeExpr} {fs : List FuncDecl}
      {u : List Piece} : info.modifiers.Made u →
      Made (.abstraction info x target fs)
        (u ++ [key .kAbstract, Piece.name x, Piece.name "becomes", Piece.type target]
          ++ braced ((fs.flatMap FuncDecl.phrases).map part))
  | refurbish {info : DeclInfo} {target : TypeExpr} {fs : List FuncDecl} {u : List Piece} :
      info.modifiers.Made u →
      Made (.refurbish info target fs) (u ++ [key .kRefurbish, Piece.type target]
        ++ braced ((fs.flatMap FuncDecl.phrases).map part))
  | attributeDef {info : DeclInfo} {x : String} {params : List String} {us : List AttributeUse}
      {u v w : List Piece} : info.modifiers.Made u → Names params v →
      Each AttributeUse.Listed us w →
      Made (.attributeDef info x params us) (u ++ [key .kAttribute, Piece.name x] ++ v ++ braced w)

inductive Node.Made : Node → List Piece → Prop where
  | file {f : File} : Made (.file f) ((f.decls.flatMap Decl.phrases).map part ++ [sign .eof])
  | decl {d : Decl} {w : List Piece} : d.Made w → Made (.decl d) w
  | var {d : VarDecl} {w : List Piece} : d.Made w → Made (.var d) w
  | func {f : FuncDecl} {w : List Piece} : f.Made w → Made (.func f) w
  | enum {d : EnumDecl} {w : List Piece} : d.Made w → Made (.enum d) w
  | inject {info : DeclInfo} {text : String} {u w : List Piece} : info.modifiers.Made u →
      Captured text w → Made (.inject info) (u ++ w)
  | type {t : TypeExpr} {w : List Piece} : t.Made w → Made (.type t) w
  | block {b : Block} : Made (.block b) (braced (b.stmts.map Piece.stmt))
  | stmt {s : Stmt} {w : List Piece} : s.Made w → Made (.stmt s) w
  | expr {e : Expr} {w : List Piece} : e.Made w → Made (.expr e) w

inductive EnumMember.Made : EnumMember → List Piece → Prop where
  | mk {m : EnumMember} :
      Made m (Piece.name m.name :: led (op .assign) (m.value.map Piece.expr))

/-- The production of a phrase. -/
inductive Phrase.Made : Phrase → List Piece → Prop where
  | node {n : Node} {w : List Piece} : n.Made w → Made (.node n) w
  | param {p : Param} {w : List Piece} : p.Made w → Made (.param p) w
  | enumerator {m : EnumMember} {w : List Piece} : m.Made w → Made (.enumerator m) w
  | use {u : AttributeUse} {w : List Piece} : u.Made w → Made (.use u) w

/-! ### From productions to tokens -/

section

variable (fits : Phrase → List Token → Prop)

mutual

/-- `ts` are the tokens of the phrase `p`, and it and all phrases inside of it fit their tokens. -/
inductive Phrase.Built : Phrase → List Token → Prop where
  | mk {p : Phrase} {w : List Piece} {ts : List Token} : p.Made w → Piece.Filled w ts → fits p ts →
      Phrase.Built p ts

/-- `ts` are the tokens of the pieces, one after the other. -/
inductive Piece.Filled : List Piece → List Token → Prop where
  | nil : Piece.Filled [] []
  | sign {t : Token} {w : List Piece} {ts : List Token} : Piece.Filled w ts →
      Piece.Filled (.sign t.kind :: w) (t :: ts)
  | word {t : Token} {w : List Piece} {ts : List Token} : Piece.Filled w ts →
      Piece.Filled (.word t.kind t.literal :: w) (t :: ts)
  | part {p : Phrase} {w : List Piece} {ts us : List Token} : Phrase.Built p ts →
      Piece.Filled w us → Piece.Filled (.part p :: w) (ts ++ us)

end

end

/-- `ts` are the tokens of the phrase. -/
abbrev Phrase.Spelled : Phrase → List Token → Prop := Phrase.Built fun _ _ => True

/-- The span reaches from the first of the tokens to the last. -/
structure Span.Covers (s : Span) (ts : List Token) : Prop where
  start : ts.head?.map Token.pos = some s.start
  stop : ts.getLast?.map Token.stop = some s.stop

/-- Those of its tokens that the span of a phrase takes in. -/
def Phrase.covered (p : Phrase) (ts : List Token) : List Token :=
  match p with
  | .node (.expr (.member _ _ _ _)) => ts.dropLast
  | _ => ts

def Phrase.Marked (p : Phrase) (ts : List Token) : Prop := p.span.Covers (p.covered ts)

end TastyLang
