import TastyLang.Scope.Basic
import TastyLang.Syntax.Decl
import TastyLang.Ty.Relations

/-!
# What resolution finds out

`Info` holds the results of resolution, keyed by the spans of the nodes they belong to. A node
without an entry has an unknown type.
-/

/-! ### Errors of resolution
-/

namespace TastyLang

/-- Why the names and types of a file do not work out. -/
inductive ResolveError where
  | redeclared (e : Redeclaration)
  /-- a call through an abstract binding of a member that it does not list -/
  | notForwarded (binding member : String) (pos : Pos)
  | type (e : TypeError)
  /-- a namespace whose members have no scope to stand in -/
  | noScope (name : String) (pos : Pos)
  deriving Inhabited

namespace ResolveError

def pos : ResolveError → Pos
  | redeclared e => e.pos
  | notForwarded _ _ p | noScope _ p => p
  | type e => e.pos

def code : ResolveError → String
  | redeclared _ | noScope _ _ => "E301"
  | notForwarded _ _ _ => "E302"
  | type e => e.code

def detail : ResolveError → String
  | redeclared e => e.detail
  | notForwarded b m _ => s!"abstract {b} does not forward {Text.quote m}"
  | type e => e.detail
  | noScope name _ => s!"namespace {Text.quote name} has no members"

def message (e : ResolveError) : String :=
  match e with
  | type t => t.message
  | _ => s!"resolution error at line {e.pos.line}, column {e.pos.column}: {e.detail}"

end ResolveError

end TastyLang

namespace TastyLang

/-- The form of a member access in C++; an arrow knows how deep a pointer its receiver is. -/
inductive Access where
  | dot
  | arrow (depth : Int)
  | scope
  deriving DecidableEq, Inhabited

namespace Access

def name : Access → String
  | dot => "dot" | arrow _ => "arrow" | scope => "scope"

def depth : Access → Int
  | arrow d => d
  | _ => 0

/-- A receiver and a member name put together. A receiver that is more than one pointer deep is
dereferenced in front of the arrow. -/
def render (a : Access) (receiver member : String) : String :=
  match a with
  | dot => receiver ++ "." ++ member
  | scope => receiver ++ "::" ++ member
  | arrow d =>
    if d ≤ 1 then receiver ++ "->" ++ member
    else "(" ++ Text.repeated "*" (d - 1).toNat ++ receiver ++ ")->" ++ member

end Access

/-- A function that an abstract or refurbish declaration adds to a type. -/
structure Extension where
  /-- the abstract name, or the refurbished type as written -/
  owner : String
  name : String
  /-- the name in C++ -/
  cname : String
  /-- the span of the function -/
  decl : Span
  /-- the type of the receiver inside the body -/
  self : Ty
  deriving Inhabited

/-- A call of an extension; `depth` is how deep a pointer the receiver is. -/
structure ExtensionCall where
  ext : Extension
  depth : Nat
  deriving Inhabited

/-- The functions that can be called through an abstract binding: forwarded to the target, or
added by the binding. -/
structure Capabilities where
  name : String
  target : Option Ty := none
  forwarded : List (String × Span) := []
  added : List (String × Extension) := []
  deriving Inhabited

structure Info where
  symbols : SymbolTable := {}
  hierarchy : Hierarchy := {}
  /-- types of expressions -/
  types : SpanMap Ty := {}
  /-- expressions that name a scope and no value -/
  typeNames : SpanMap Unit := {}
  /-- written types -/
  typeExprs : SpanMap Ty := {}
  /-- what names refer to -/
  uses : SpanMap SymbolId := {}
  access : SpanMap Access := {}
  extensionCalls : SpanMap ExtensionCall := {}
  vars : SpanMap SymbolId := {}
  params : SpanMap SymbolId := {}
  loopVars : SpanMap SymbolId := {}
  /-- results of functions -/
  results : SpanMap Ty := {}
  /-- uses of `self` that are the object of a method -/
  this : SpanMap Unit := {}
  /-- classes in the order of their declaration -/
  classes : List (Span × String × SymbolId) := []
  capabilities : List (String × Capabilities) := []
  extensions : List Extension := []
  deriving Inhabited

namespace Info

variable (info : Info)

def typeOf (e : Expr) : Ty := info.types.getD e.span (.unknown "")

def typeOfExpr (t : TypeExpr) : Ty := info.typeExprs.getD t.span (.unknown t.text)

/-- The type of a symbol that a table may list. -/
def symbolType (id? : Option SymbolId) : Ty :=
  (id?.bind fun id => (info.symbols.symbol id).type).getD (.unknown "")

def varType (d : VarDecl) : Ty := info.symbolType info.vars[d.info.span]?

/-- The type of a parameter with its storage. -/
def paramType (p : Param) : Ty := info.symbolType info.params[p.span]?

def loopVarType (span : Span) : Ty := info.symbolType info.loopVars[span]?

def result (f : FuncDecl) : Ty := info.results.getD f.info.span .void

def extensionFor? (f : FuncDecl) : Option Extension :=
  info.extensions.reverse.find? fun e => e.decl = f.info.span

def classSymbol? (span : Span) : Option SymbolId :=
  (info.classes.lookup span).map (·.2)

/-- The name and span of the class of the file that a base names, if it names one. -/
def localBase? (base : TypeExpr) : Option (Span × String) :=
  match info.typeOfExpr base with
  | .cls _ number =>
    (info.classes.find? fun (_, _, id) =>
      match (info.symbols.symbol id).type with
      | some (.cls _ n) => n == number
      | _ => false).map fun (span, name, _) => (span, name)
  | _ => none

def use? (span : Span) : Option Symbol := info.uses[span]?.map info.symbols.symbol

/-- The variable declaration that a name refers to. -/
def varOf? (span : Span) : Option Span :=
  match info.use? span with
  | some s =>
    match s.origin with
    | .var d => some d
    | _ => none
  | none => none

/-- A symbol as listings show it. -/
structure Entry where
  name : String
  kind : SymbolKind
  type : String
  line : Int
  unknown : Bool
  deriving Inhabited

def entry (id : SymbolId) : Entry :=
  let s := info.symbols.symbol id
  let type := match s.type with
    | some t => if s.kind.isTypeName then "" else t.text
    | none => ""
  ⟨info.symbols.qualified id, s.kind, type, s.line, s.unknown⟩

/-- The symbols of a scope and of the scopes of their members, at most `n` deep. -/
def entriesFrom : Nat → ScopeId → List Entry
  | 0, _ => []
  | n + 1, sc =>
    (info.symbols.scope sc).order.flatMap fun id =>
      info.entry id ::
        match (info.symbols.symbol id).members with
        | some m => entriesFrom n m
        | none => []

/-- All symbols that can be reached from the file's scope, by line and then by name. -/
def listing : List Entry :=
  (info.entriesFrom info.symbols.scopes.size SymbolTable.global).mergeSort fun a b =>
    a.line < b.line || (a.line == b.line && (a.name < b.name || a.name == b.name))

end Info

end TastyLang
