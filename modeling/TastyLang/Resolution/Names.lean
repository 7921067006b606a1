import TastyLang.Resolution.Info
import TastyLang.Ty.Relations

/-!
# Names and written types

The state of a resolution, and the two ways it looks things up: names in scopes, and types as they
are written. A type that nothing declares keeps its name and is unknown.
-/

namespace TastyLang.Resolution

/-- How far the body of a function is resolved. -/
inductive Phase where
  | fresh | active | done
  deriving DecidableEq, Inhabited

/-- What is needed to resolve the body of a function at any time. -/
structure FuncState where
  decl : FuncDecl
  /-- the scope that the function is declared in; a block of an assumed namespace has none -/
  scope : Option ScopeId
  /-- the class of a method -/
  cls : Option SymbolId := none
  ext : Option Extension := none
  phase : Phase := .fresh
  deriving Inhabited

structure State where
  info : Info := {}
  funcs : SpanMap FuncState := {}
  /-- the classes of the file by dotted name, the last one first -/
  classes : List (String × SymbolId) := []
  /-- the dotted names from `assume`, the last one first -/
  assumed : List (String × SymbolId) := []
  /-- the functions added to types, by the text of the type -/
  refurbished : List (String × String × Extension) := []
  /-- the types of the values that the current function returns -/
  returns : List Ty := []
  deriving Inhabited

abbrev Resolver := StateT State (Except ResolveError)

/-- Where a node stands: the table, the scope, and the function around it. `demand` resolves the
body of another function. -/
structure Place where
  table : Table
  scope : ScopeId
  /-- the name and the place of the block around, if it joins an assumed namespace: such a block has no
  scope, and `scope` is the one around it -/
  bare : Option (String × Pos) := none
  fn : Option FuncState := none
  demand : Span → Resolver Unit

/-! ### Steps on the state -/

def modifyInfo (f : Info → Info) : Resolver Unit := modify fun s => { s with info := f s.info }

def fail {α : Type} (e : ResolveError) : Resolver α := throw e

def failType {α : Type} (cause : TypeError.Cause) (pos : Pos) : Resolver α :=
  fail (.type ⟨cause, pos⟩)

/-- Requires that a value of type `src` fits a place of type `dst`. -/
def requireAssignable (dst src : Ty) (pos : Pos) : Resolver Unit := do
  match Ty.assignable (← get).info.hierarchy dst src with
  | .ok _ => pure ()
  | .error cause => failType cause pos

def symbolOf (id : SymbolId) : Resolver Symbol := return (← get).info.symbols.symbol id

def alloc (s : Symbol) : Resolver SymbolId := do
  let (symbols, id) := (← get).info.symbols.alloc s
  modifyInfo fun i => { i with symbols }
  return id

def modifySymbol (id : SymbolId) (f : Symbol → Symbol) : Resolver Unit :=
  modifyInfo fun i => { i with symbols := i.symbols.modifySymbol id f }

def setType (id : SymbolId) (t : Ty) : Resolver Unit :=
  modifySymbol id fun s => { s with type := some t }

def declare (sc : ScopeId) (id : SymbolId) (pos : Pos) : Resolver Unit := do
  match (← get).info.symbols.declare sc id pos with
  | .ok symbols => modifyInfo fun i => { i with symbols }
  | .error e => fail (.redeclared e)

def newScope (parent : Option ScopeId) (kind : ScopeKind) (owner : Option SymbolId) :
    Resolver ScopeId := do
  let (symbols, id) := (← get).info.symbols.child parent kind owner
  modifyInfo fun i => { i with symbols }
  return id

/-- A number for a class with given bases. -/
def newClass (bases : List Ty) : Resolver Nat := do
  let number := (← get).info.hierarchy.bases.length
  modifyInfo fun i => { i with hierarchy := ⟨i.hierarchy.bases ++ [bases]⟩ }
  return number

def addBase (number : Nat) (base : Ty) : Resolver Unit :=
  modifyInfo fun i => { i with hierarchy := ⟨i.hierarchy.bases.modify number (· ++ [base])⟩ }

/-- A type as named through an abstract binding. A class named so keeps the bases that it has by
now. -/
def named (t : Ty) (binding : String) : Resolver Ty := do
  match t.core with
  | .cls name number =>
    let copy ← newClass ((← get).info.hierarchy.bases.getD number [])
    return .via binding (.cls name copy)
  | _ => return t.viaBinding binding

/-! ### Looking names up -/

/-- A symbol reached from another through members. -/
def throughMembers? (t : SymbolTable) : SymbolId → List String → Option SymbolId
  | id, [] => some id
  | id, part :: parts =>
    match (t.symbol id).members with
    | none => none
    | some m =>
      match t.lookupLocal? m part with
      | some next => throughMembers? t next parts
      | none => none

/-- The symbol of a dotted name. -/
def State.lookupDotted? (s : State) (sc : ScopeId) (name : String) : Option SymbolId :=
  match s.assumed.lookup name with
  | some id => some id
  | none =>
    match Text.cut '.' name with
    | [] => none
    | first :: parts =>
      (s.info.symbols.lookup? sc first).bind fun id => throughMembers? s.info.symbols id parts

/-- Whether a name is the head of a dotted name from `assume`, which makes it a namespace. -/
def State.isAssumedHead (s : State) (name : String) : Bool :=
  s.assumed.any fun (full, _) => Text.startsWith (name ++ ".") full

/-- Whether a name is a namespace that the file does not declare. -/
def State.isOuterNamespace (s : State) (table : Table) (name : String) : Bool :=
  table.isNamespace name || s.isAssumedHead name

/-- The first symbol of a name in `c` and its bases, at most `n` generations away. The result
lists the classes that were searched. -/
def State.searchMember (s : State) (name : String) :
    Nat → List SymbolId → SymbolId → List SymbolId × Option SymbolId
  | 0, seen, _ => (seen, none)
  | n + 1, seen, c =>
    let sym := s.info.symbols.symbol c
    match sym.members with
    | none => (seen, none)
    | some m =>
      if seen.contains c then (seen, none)
      else
        match s.info.symbols.lookupLocal? m name with
        | some found => (c :: seen, some found)
        | none =>
          let bases := s.info.hierarchy.basesOf (sym.type.getD .absent)
          bases.foldl (fun (seen, found) b =>
            match found, s.classes.lookup b.name with
            | some f, _ => (seen, some f)
            | none, some base => s.searchMember name n seen base
            | none, none => (seen, none)) (c :: seen, none)

/-- A member of a class or of the classes it inherits from. -/
def State.member? (s : State) (c : SymbolId) (name : String) : Option SymbolId :=
  (s.searchMember name (s.classes.length + 2) [] c).2

/-- The class of the file that a value gives access to. -/
def State.classOf? (s : State) (t : Ty) : Option SymbolId :=
  match t.pointee.core with
  | .cls name _ => s.classes.lookup name
  | _ => none

/-! ### Written types -/

/-- A primitive that operators and loops need, even if the table lost it. -/
def primitive (table : Table) (name : String) : Ty :=
  Ty.ofPrimitive ((table.primitive? name).getD ⟨name, name, 4, true, ""⟩)

/-- The type of a dotted name. -/
def namedType (p : Place) (name : String) : Resolver Ty := do
  match p.table.primitive? name with
  | some prim => return .ofPrimitive prim
  | none =>
    let s ← get
    match (s.lookupDotted? p.scope name).map s.info.symbols.symbol with
    | some sym =>
      match sym.kind, sym.type with
      | .cls, some t | .enum, some t | .abstraction, some t => return t
      | _, _ => return .unknown name
    | none => return .unknown name

/-- Notes what a written type stands for. -/
def noteType (span : Span) (t : Ty) : Resolver Ty := do
  modifyInfo fun i => { i with typeExprs := i.typeExprs.insert span t }
  return t

mutual

/-- The type that a written type stands for. -/
def typeExpr (p : Place) : TypeExpr → Resolver Ty
  | .tuple span elems stars => do
    let ts ← typeExprs p elems
    noteType span ((Ty.tuple ts).pointerTo stars)
  | .func span params result stars => do
    let ts ← typeExprs p params
    let r ← match result with
      | some r => typeExpr p r
      | none => pure .void
    noteType span ((Ty.func ts r).pointerTo stars)
  | .named span name args stars => do
    let t ← namedType p name
    let ts ← typeExprs p args
    noteType span ((if args.isEmpty then t else .template t ts).pointerTo stars)

def typeExprs (p : Place) : List TypeExpr → Resolver (List Ty)
  | [] => pure []
  | t :: ts => do
    let u ← typeExpr p t
    return u :: (← typeExprs p ts)

end

end TastyLang.Resolution
