import TastyLang.Source.Position
import TastyLang.Text.Quoted
import TastyLang.Ty.Basic

/-!
# Scopes and symbols

A `SymbolTable` holds all scopes and symbols of a file; both are known by their numbers. A scope
knows the chain of scopes around it, itself first, so that looking a name up is a search along the
chain. Functions may share a name with functions, nothing else may be declared twice in a scope.
-/

namespace TastyLang

abbrev SymbolId := Nat

abbrev ScopeId := Nat

inductive SymbolKind where
  | scope | cls | abstraction | enum | enumerator | func | var | param | attributeDef
  | other
  deriving DecidableEq, Inhabited

namespace SymbolKind

def name : SymbolKind → String
  | scope => "namespace" | cls => "class" | abstraction => "abstract" | enum => "enum"
  | enumerator => "enumerator" | func => "function" | var => "variable" | param => "parameter"
  | attributeDef => "attribute" | other => "symbol"

/-- Whether a use of the symbol names a scope and no value. -/
def isTypeName : SymbolKind → Bool
  | scope | cls | abstraction | enum => true
  | _ => false

end SymbolKind

inductive ScopeKind where
  | global | scope | cls | func | block
  | other
  deriving DecidableEq, Inhabited

def ScopeKind.name : ScopeKind → String
  | global => "global" | scope => "namespace" | cls => "class" | func => "function"
  | block => "block" | other => "scope"

/-- What a symbol was declared by, as far as later steps ask. -/
inductive Origin where
  /-- nothing in the file -/
  | none
  | func (span : Span)
  | var (span : Span)
  /-- any other declaration -/
  | other (pos : Pos)
  deriving DecidableEq, Inhabited

/-- Where the declaration starts. -/
def Origin.pos? : Origin → Option Pos
  | none => Option.none
  | func s | var s => some s.start
  | other p => some p

structure Symbol where
  name : String
  kind : SymbolKind
  type : Option Ty := none
  /-- the scope that holds the symbol -/
  home : Option ScopeId := none
  /-- the scope that holds its members -/
  members : Option ScopeId := none
  origin : Origin := .none
  /-- whether nothing declares the name -/
  unknown : Bool := false
  /-- whether the name comes from an `assume` -/
  assumed : Bool := false
  static : Bool := false
  deriving Inhabited

def Symbol.line (s : Symbol) : Int := (s.origin.pos?.map (·.line)).getD 0

structure Scope where
  kind : ScopeKind
  owner : Option SymbolId := none
  /-- the scope itself and those around it, from the inside out -/
  chain : List ScopeId
  /-- the symbols declared here, in order -/
  order : List SymbolId := []
  deriving Inhabited

structure SymbolTable where
  scopes : Array Scope := #[⟨.global, none, [0], []⟩]
  symbols : Array Symbol := #[]
  deriving Inhabited

/-- A name declared twice in a scope. -/
structure Redeclaration where
  kind : SymbolKind
  name : String
  previous : SymbolKind
  previousLine : Int
  pos : Pos
  deriving DecidableEq, Inhabited

def Redeclaration.detail (e : Redeclaration) : String :=
  s!"{e.kind.name} {Text.quote e.name} redeclared in this scope "
    ++ s!"(previous {e.previous.name} at line {e.previousLine})"

namespace SymbolTable

def global : ScopeId := 0

def scope (t : SymbolTable) (id : ScopeId) : Scope := t.scopes.getD id default

def symbol (t : SymbolTable) (id : SymbolId) : Symbol := t.symbols.getD id default

/-- A symbol that is not yet declared anywhere. -/
def alloc (t : SymbolTable) (s : Symbol) : SymbolTable × SymbolId :=
  ({ t with symbols := t.symbols.push s }, t.symbols.size)

def modifySymbol (t : SymbolTable) (id : SymbolId) (f : Symbol → Symbol) : SymbolTable :=
  { t with symbols := t.symbols.modify id f }

/-- A scope and the ones around it; where there is none, no scope is. -/
def chainOf (t : SymbolTable) : Option ScopeId → List ScopeId
  | some sc => (t.scope sc).chain
  | none => []

/-- A new scope inside another, or inside none. -/
def child (t : SymbolTable) (parent : Option ScopeId) (kind : ScopeKind) (owner : Option SymbolId) :
    SymbolTable × ScopeId :=
  let id := t.scopes.size
  ({ t with scopes := t.scopes.push ⟨kind, owner, id :: t.chainOf parent, []⟩ }, id)

/-- The first symbol of a name that is declared in the scope itself. -/
def lookupLocal? (t : SymbolTable) (sc : ScopeId) (name : String) : Option SymbolId :=
  (t.scope sc).order.find? fun id => (t.symbol id).name == name

/-- Whether a name is that of a namespace without a scope for members. -/
def isBare (t : SymbolTable) (sc : ScopeId) (name : String) : Bool :=
  ((t.lookupLocal? sc name).map t.symbol).any fun s => s.kind == .scope && s.members.isNone

/-- The symbol of a name in the scope or the nearest one around it. -/
def lookup? (t : SymbolTable) (sc : ScopeId) (name : String) : Option SymbolId :=
  (t.scope sc).chain.findSome? fun s => t.lookupLocal? s name

/-- The nearest scope of a kind. -/
def enclosing? (t : SymbolTable) (sc : ScopeId) (kind : ScopeKind) : Option ScopeId :=
  (t.scope sc).chain.find? fun s => (t.scope s).kind == kind

def parent? (t : SymbolTable) (sc : ScopeId) : Option ScopeId := (t.scope sc).chain[1]?

/-- Whether two declarations of one name may stand in a scope. -/
def mayShare (a b : SymbolKind) : Bool := a == .func && b == .func

/-- Declares a symbol in a scope. -/
def declare (t : SymbolTable) (sc : ScopeId) (id : SymbolId) (pos : Pos) :
    Except Redeclaration SymbolTable :=
  let s := t.symbol id
  let add : SymbolTable :=
    { symbols := t.symbols.modify id fun s => { s with home := some sc }
      scopes := t.scopes.modify sc fun c => { c with order := c.order ++ [id] } }
  match t.lookupLocal? sc s.name with
  | some prev =>
    let p := t.symbol prev
    if mayShare p.kind s.kind then .ok add
    else .error ⟨s.kind, s.name, p.kind, p.line, pos⟩
  | none => .ok add

/-- The dotted name of a symbol with the namespaces and classes around it. -/
def qualified (t : SymbolTable) (id : SymbolId) : String :=
  let s := t.symbol id
  match s.home with
  | none => s.name
  | some sc =>
    (t.scope sc).chain.foldl (fun name c =>
      match (t.scope c).owner with
      | some o =>
        let owner := t.symbol o
        if owner.kind.isTypeName then owner.name ++ "." ++ name else name
      | none => name) s.name

end SymbolTable

end TastyLang
