import TastyLang.Source.Position
import TastyLang.Text.Pieces
import TastyLang.Token.Basic

/-!
# Expressions

The tree of an expression, with the span of every node. `Expr.qualified` reads a chain of dotted
names off a tree, `Expr.idents` lists the names in it, `Expr.deleted` those that it releases.
-/

/-! ### Types as written

A `TypeExpr` is a type in a source text. `TypeExpr.text` writes it back in surface syntax.
-/

namespace TastyLang

/-- A type as written; `stars` counts the pointer stars behind it. -/
inductive TypeExpr where
  /-- A dotted name with template arguments. Numbers among the arguments are names too. -/
  | named (span : Span) (name : String) (args : List TypeExpr) (stars : Nat)
  | tuple (span : Span) (elems : List TypeExpr) (stars : Nat)
  | func (span : Span) (params : List TypeExpr) (result : Option TypeExpr) (stars : Nat)
  deriving Inhabited

namespace TypeExpr

def span : TypeExpr → Span
  | named s _ _ _ | tuple s _ _ | func s _ _ _ => s

def stars : TypeExpr → Nat
  | named _ _ _ n | tuple _ _ n | func _ _ _ n => n

mutual

/-- The type in surface syntax. -/
def text : TypeExpr → String
  | named _ name [] stars => name ++ Text.repeated "*" stars
  | named _ name args stars => name ++ "<" ++ textList args ++ ">" ++ Text.repeated "*" stars
  | tuple _ elems stars => "(" ++ textList elems ++ ")" ++ Text.repeated "*" stars
  | func _ params none stars => "fn(" ++ textList params ++ ")" ++ Text.repeated "*" stars
  | func _ params (some result) stars =>
    "fn(" ++ textList params ++ ") -> " ++ text result ++ Text.repeated "*" stars

def textList : List TypeExpr → String
  | [] => ""
  | [t] => text t
  | t :: ts => text t ++ ", " ++ textList ts

end

mutual

/-- The dotted names in a written type. -/
def words : TypeExpr → List String
  | .tuple _ elems _ => wordsOf elems
  | .func _ params result _ =>
    wordsOf params ++
      match result with
      | some r => words r
      | none => []
  | .named _ name args _ => name :: wordsOf args

def wordsOf : List TypeExpr → List String
  | [] => []
  | t :: ts => words t ++ wordsOf ts

end

end TypeExpr

end TastyLang

namespace TastyLang

inductive LiteralKind where
  | int | float | string | char | bool | null
  deriving DecidableEq, Inhabited

/-- How a member is asked for: `.` leaves the choice of the C++ form open, the others fix it. -/
inductive Accessor where
  | dot | arrow | scope
  deriving DecidableEq, Inhabited

def Accessor.symbol : Accessor → String
  | dot => "." | arrow => "->" | scope => "::"

inductive CastKind where
  | plain | static | dynamic | reinterpret
  deriving DecidableEq, Inhabited

def CastKind.name : CastKind → String
  | plain => "c" | static => "static" | dynamic => "dynamic" | reinterpret => "reinterpret"

inductive Expr where
  | literal (span : Span) (kind : LiteralKind) (value : String)
  | ident (span : Span) (name : String)
  | self (span : Span)
  | binary (span : Span) (op : Operator) (left right : Expr)
  | unary (span : Span) (op : Operator) (x : Expr) (trailing : Bool)
  | call (span : Span) (fn : Expr) (args : List Expr)
  | member (span : Span) (x : Expr) (name : String) (accessor : Accessor)
  | index (span : Span) (x at' : Expr)
  | new (span : Span) (type : TypeExpr) (args : List Expr)
  | delete (span : Span) (x : Expr)
  | cast (span : Span) (x : Expr) (kind : CastKind) (type : TypeExpr)
  | tuple (span : Span) (elems : List Expr)
  | tupleIndex (span : Span) (x : Expr) (at' : Nat)
  | range (span : Span) (low high : Expr)
  | ternary (span : Span) (cond yes no : Expr)
  | paren (span : Span) (x : Expr)
  deriving Inhabited

namespace Expr

def span : Expr → Span
  | literal s _ _ | ident s _ | self s | binary s _ _ _ | unary s _ _ _ | call s _ _
  | member s _ _ _ | index s _ _ | new s _ _ | delete s _ | cast s _ _ _ | tuple s _
  | tupleIndex s _ _ | range s _ _ | ternary s _ _ _ | paren s _ => s

def pos (e : Expr) : Pos := e.span.start

/-- The dotted name of a name or of a chain of dots on one; empty for anything else. -/
def qualified : Expr → String
  | ident _ name => name
  | member _ x name .dot =>
    match qualified x with
    | "" => ""
    | base => base ++ "." ++ name
  | _ => ""

/-- The name at the root of a chain of member accesses. -/
def root? : Expr → Option (Span × String)
  | ident s name => some (s, name)
  | member _ x _ _ => root? x
  | _ => none

def isNew : Expr → Bool
  | new _ _ _ => true
  | _ => false

/-- The expression without the parentheses around it. -/
def unparen : Expr → Expr
  | paren _ x => unparen x
  | e => e

mutual

/-- The places of the names in an expression, in the order of the text. -/
def idents : Expr → List Span
  | ident s _ => [s]
  | literal _ _ _ | self _ => []
  | binary _ _ l r => idents l ++ idents r
  | unary _ _ x _ | member _ x _ _ | delete _ x | cast _ x _ _ | tupleIndex _ x _ | paren _ x =>
    idents x
  | call _ fn args => idents fn ++ identsOf args
  | index _ x i => idents x ++ idents i
  | new _ _ args => identsOf args
  | tuple _ elems => identsOf elems
  | range _ low high => idents low ++ idents high
  | ternary _ c y n => idents c ++ idents y ++ idents n

def identsOf : List Expr → List Span
  | [] => []
  | e :: es => idents e ++ identsOf es

end

mutual

/-- The places of the names that a `delete` in the expression releases: those that stand right behind it.
A name in parentheses is deleted but not released. -/
def deleted : Expr → List Span
  | literal _ _ _ | self _ | ident _ _ => []
  | binary _ _ l r => deleted l ++ deleted r
  | delete _ (ident s _) => [s]
  | unary _ _ x _ | member _ x _ _ | delete _ x | cast _ x _ _ | tupleIndex _ x _ | paren _ x =>
    deleted x
  | call _ fn args => deleted fn ++ deletedIn args
  | index _ x i => deleted x ++ deleted i
  | new _ _ args => deletedIn args
  | tuple _ elems => deletedIn elems
  | range _ low high => deleted low ++ deleted high
  | ternary _ c y n => deleted c ++ deleted y ++ deleted n

def deletedIn : List Expr → List Span
  | [] => []
  | e :: es => deleted e ++ deletedIn es

end

end Expr

end TastyLang
