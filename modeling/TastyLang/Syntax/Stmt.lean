import TastyLang.Syntax.Expr
import TastyLang.Syntax.Storage

/-!
# Statements

The tree of a function body. A body comes out of the parser without notes on ownership; settling
a file fills in what each block owns (`Block.owned`) and what is released on the way out of it
(`Exit`).
-/

namespace TastyLang

/-- The use of an attribute; the arguments are source text. -/
structure AttributeUse where
  span : Span
  name : String
  args : List String := []
  deriving DecidableEq, Inhabited

/-- A header that an attribute asks for. -/
structure IncludeRequest where
  path : String
  isLocal : Bool
  deriving DecidableEq, Inhabited

/-- What the attributes of a declaration generate. -/
structure Generated where
  /-- texts put into the body of a class, or after any other declaration -/
  append : List String := []
  /-- texts put in front of the declaration -/
  prepend : List String := []
  noHeader : Bool := false
  includes : List IncludeRequest := []
  /-- appended texts that a class takes over from its bases -/
  inherited : List String := []
  deriving DecidableEq, Inhabited

/-- What all declarations have in common. -/
structure DeclInfo where
  span : Span
  attrs : List AttributeUse := []
  modifiers : Modifiers := {}
  generated : Generated := {}
  deriving Inhabited

/-- A variable, field or global. -/
structure VarDecl where
  info : DeclInfo
  name : String
  storage : Storage
  type : Option TypeExpr := none
  value : Option Expr := none
  deriving Inhabited

/-- A local raw pointer that owns its value: its name, how many pointers stand in a row, and where
it was declared. -/
structure Owned where
  name : String
  level : Nat
  pos : Pos
  deriving DecidableEq, Inhabited

/-- What happens on the way out of a block: pointers are released, and with `hold` the returned
value is kept in a temporary until they are. -/
structure Exit where
  deletes : List Owned
  hold : Bool := false
  deriving DecidableEq, Inhabited

/-- The counting loops: upwards or downwards, with or without the last value. -/
inductive CountKind where
  | inc | incto | dec | decto
  deriving DecidableEq, Inhabited

namespace CountKind

def word : CountKind → String
  | inc => "inc" | incto => "incto" | dec => "dec" | decto => "decto"

def ascending : CountKind → Bool
  | inc | incto => true
  | dec | decto => false

def inclusive : CountKind → Bool
  | incto | decto => true
  | inc | dec => false

end CountKind

mutual

inductive Stmt where
  | block (b : Block)
  | expr (span : Span) (x : Expr)
  | decl (span : Span) (d : VarDecl)
  /-- `if`, or `unless` with `negate`; the branch after `else` is a block or another branch -/
  | branch (span : Span) (negate : Bool) (cond : Expr) (yes : Block) (no : Option Stmt)
  /-- `while`, or `until` with `negate`; without a condition, `loop` -/
  | loop (span : Span) (negate : Bool) (cond : Option Expr) (body : Block)
  | count (span : Span) (kind : CountKind) (name : String) (low high : Expr) (step : Option Expr)
      (body : Block)
  | each (span : Span) (name : String) (storage : Storage) (items : Expr) (body : Block)
  /-- `implicit` marks the trailing expression of a body; with `effect` it is only evaluated -/
  | ret (span : Span) (value : Option Expr) (implicit effect : Bool) (exit : Option Exit)
  | brk (span : Span) (exit : Option Exit)
  | cont (span : Span) (exit : Option Exit)
  | inject (span : Span) (text : String)

/-- Statements between braces; the span ends after the closing brace. -/
inductive Block where
  | mk (span : Span) (stmts : List Stmt) (owned : List Owned)

end

instance : Inhabited Block := ⟨.mk {} [] []⟩
instance : Inhabited Stmt := ⟨.inject {} ""⟩

namespace Block

def span : Block → Span
  | mk s _ _ => s

def stmts : Block → List Stmt
  | mk _ ss _ => ss

/-- The pointers released at the closing brace. -/
def owned : Block → List Owned
  | mk _ _ o => o

end Block

def Stmt.span : Stmt → Span
  | .block b => b.span
  | .expr s _ | .decl s _ | .branch s _ _ _ _ | .loop s _ _ _ | .count s _ _ _ _ _ _
  | .each s _ _ _ _ | .ret s _ _ _ _ | .brk s _ | .cont s _ | .inject s _ => s

def Stmt.pos (s : Stmt) : Pos := s.span.start

end TastyLang
