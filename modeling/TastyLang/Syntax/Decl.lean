import TastyLang.Syntax.Stmt

/-!
# Declarations

The tree of a file. `Item` are the declarations that a class may hold, `Decl` all of them.
-/

namespace TastyLang

/-- The four directives that name what a file depends on. -/
inductive IncludeKind where
  | header | contained | imported | derived
  deriving DecidableEq, Inhabited

namespace IncludeKind

def word : IncludeKind → String
  | header => "include" | contained => "contain" | imported => "import" | derived => "derive"

/-- Whether the directive names another module of the language. -/
def isModule : IncludeKind → Bool
  | imported | derived => true
  | header | contained => false

/-- Whether the directive only concerns the source file. -/
def inSource : IncludeKind → Bool
  | contained | derived => true
  | header | imported => false

end IncludeKind

/-- What `assume` can declare a name to be. -/
inductive AssumeKind where
  | scope | cls | var | func
  deriving DecidableEq, Inhabited

namespace AssumeKind

def word : AssumeKind → String
  | scope => "namespace" | cls => "class" | var => "variable" | func => "function"

def ofWord? (w : String) : Option AssumeKind :=
  [scope, cls, var, func].find? (·.word == w)

end AssumeKind

inductive FuncKind where
  | plain
  | constructor
  | destructor
  | operator (symbol : String)
  deriving DecidableEq, Inhabited

def FuncKind.name : FuncKind → String
  | plain => "plain" | constructor => "constructor" | destructor => "destructor"
  | operator _ => "operator"

structure Param where
  span : Span
  name : String
  storage : Storage := {}
  type : TypeExpr
  value : Option Expr := none
  deriving Inhabited

/-- A function or method; without a body it is a prototype. -/
structure FuncDecl where
  info : DeclInfo
  name : String
  kind : FuncKind := .plain
  params : List Param := []
  result : Option TypeExpr := none
  /-- whether the result type follows from the body -/
  infer : Bool := false
  constant : Bool := false
  body : Option Block := none
  deriving Inhabited

/-- The dotted names in the written types of the parameters and of the result. -/
def FuncDecl.words (f : FuncDecl) : List String :=
  TypeExpr.wordsOf (f.params.map (·.type) ++ f.result.toList)

structure EnumMember where
  span : Span
  name : String
  value : Option Expr := none
  deriving Inhabited

structure EnumDecl where
  info : DeclInfo
  name : String
  members : List EnumMember := []
  deriving Inhabited

/-- The declarations that may stand in a class. -/
inductive Item where
  | var (d : VarDecl)
  | func (d : FuncDecl)
  | enum (d : EnumDecl)
  | inject (info : DeclInfo) (text : String)
  deriving Inhabited

namespace Item

def info : Item → DeclInfo
  | var d => d.info
  | func d => d.info
  | enum d => d.info
  | inject i _ => i

/-- The declared name; empty when there is none. -/
def name : Item → String
  | var d => d.name
  | func d => d.name
  | enum d => d.name
  | inject _ _ => ""

def withInfo (i : DeclInfo) : Item → Item
  | var d => var { d with info := i }
  | func d => func { d with info := i }
  | enum d => enum { d with info := i }
  | inject _ text => inject i text

end Item

inductive Decl where
  | item (i : Item)
  | includes (info : DeclInfo) (kind : IncludeKind) (path : String) (isLocal : Bool)
  | assume (info : DeclInfo) (name : String) (kind : AssumeKind)
  | scope (info : DeclInfo) (name : String) (decls : List Decl)
  | cls (info : DeclInfo) (name : String) (bases : List TypeExpr) (members : List Item)
  /-- a local name for an outer type, with the functions that can be called on it -/
  | abstraction (info : DeclInfo) (name : String) (target : TypeExpr) (members : List FuncDecl)
  /-- functions added to a type -/
  | refurbish (info : DeclInfo) (target : TypeExpr) (members : List FuncDecl)
  | attributeDef (info : DeclInfo) (name : String) (params : List String)
      (directives : List AttributeUse)
  deriving Inhabited

namespace Decl

def info : Decl → DeclInfo
  | item i => i.info
  | includes i _ _ _ | assume i _ _ | scope i _ _ | cls i _ _ _ | abstraction i _ _ _
  | refurbish i _ _ | attributeDef i _ _ _ => i

def withInfo (i : DeclInfo) : Decl → Decl
  | item d => item (d.withInfo i)
  | includes _ k p l => includes i k p l
  | assume _ n k => assume i n k
  | scope _ n ds => scope i n ds
  | cls _ n bs ms => cls i n bs ms
  | abstraction _ n t ms => abstraction i n t ms
  | refurbish _ t ms => refurbish i t ms
  | attributeDef _ n ps ds => attributeDef i n ps ds

/-- The declared name; empty when there is none. -/
def name : Decl → String
  | item i => i.name
  | assume _ n _ | scope _ n _ | cls _ n _ _ | abstraction _ n _ _ | attributeDef _ n _ _ => n
  | includes _ _ _ _ | refurbish _ _ _ => ""

/-- What a declaration is called in messages. -/
def kindName : Decl → String
  | item (.var _) => "VarDecl"
  | item (.func _) => "FuncDecl"
  | item (.enum _) => "EnumDecl"
  | item (.inject _ _) => "InjectDecl"
  | includes _ _ _ _ => "IncludeDecl"
  | assume _ _ _ => "AssumeDecl"
  | scope _ _ _ => "NamespaceDecl"
  | cls _ _ _ _ => "ClassDecl"
  | abstraction _ _ _ _ => "AbstractDecl"
  | refurbish _ _ _ => "RefurbishDecl"
  | attributeDef _ _ _ _ => "AttributeDecl"

end Decl

structure File where
  span : Span := {}
  name : String := ""
  decls : List Decl := []
  deriving Inhabited

mutual

/-- The modules that a declaration asks for, also inside a namespace. -/
def Decl.imports : Decl → List String
  | .includes _ kind path _ => if kind.isModule then [path] else []
  | .scope _ _ ds => Decl.importsOf ds
  | _ => []

def Decl.importsOf : List Decl → List String
  | [] => []
  | d :: ds => d.imports ++ Decl.importsOf ds

end

/-- The modules that a file asks for, each once, in the order of the text. -/
def File.imports (f : File) : List String := (Decl.importsOf f.decls).eraseDups

end TastyLang
