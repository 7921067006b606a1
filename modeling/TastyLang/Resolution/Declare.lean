import TastyLang.Resolution.Names

/-!
# Declaring

The first pass over a file: every name that can be used before its declaration gets its symbol.
-/

namespace TastyLang.Resolution

/-- Declares a symbol that has members, in a scope of its own. -/
def declareOwner (sc : ScopeId) (s : Symbol) (inner : ScopeKind) (pos : Pos) :
    Resolver (SymbolId × ScopeId) := do
  let id ← alloc s
  declare sc id pos
  let members ← newScope (some sc) inner (some id)
  modifySymbol id fun s => { s with members := some members }
  return (id, members)

/-- The dotted name of a symbol. -/
def qualifiedName (id : SymbolId) : Resolver String :=
  return (← get).info.symbols.qualified id

/-- Notes a function whose body is resolved later. -/
def noteFunc (d : FuncDecl) (st : FuncState) : Resolver Unit :=
  modify fun s => { s with funcs := s.funcs.insert d.info.span st }

def declareFunc (sc : ScopeId) (d : FuncDecl) : Resolver Unit := do
  unless d.kind == .constructor || d.kind == .destructor do
    let id ← alloc { name := d.name, kind := .func, origin := .func d.info.span
                     static := d.info.modifiers.has .static }
    declare sc id d.info.span.start
  let t := (← get).info.symbols
  let cls := match (t.scope sc).kind, (t.scope sc).owner with
    | .cls, some o => if (t.symbol o).kind == .cls then some o else none
    | _, _ => none
  noteFunc d { decl := d, scope := some sc, cls }

def declareVar (sc : ScopeId) (d : VarDecl) : Resolver Unit := do
  let id ← alloc { name := d.name, kind := .var, origin := .var d.info.span
                   static := d.info.modifiers.has .static }
  declare sc id d.info.span.start
  modifyInfo fun i => { i with vars := i.vars.insert d.info.span id }

def declareEnum (sc : ScopeId) (d : EnumDecl) : Resolver Unit := do
  let pos := d.info.span.start
  let (id, members) ←
    declareOwner sc { name := d.name, kind := .enum, origin := .other pos } .cls pos
  let t := Ty.enum (← qualifiedName id)
  setType id t
  d.members.forM fun m => do
    let m' ← alloc { name := m.name, kind := .enumerator, type := some t
                     origin := .other m.span.start }
    declare members m' m.span.start

def declareItem (sc : ScopeId) : Item → Resolver Unit
  | .var d => declareVar sc d
  | .func d => declareFunc sc d
  | .enum d => declareEnum sc d
  | .inject _ _ => pure ()

/-- The symbol that an `assume` introduces. -/
def assumedSymbol (name : String) (kind : AssumeKind) (pos : Pos) : Resolver Symbol := do
  let (kind, type) ← match kind with
    | .scope => pure (SymbolKind.scope, Ty.scope name)
    | .cls => pure (.cls, .cls name (← newClass []))
    | .func => pure (.func, .unknown "")
    | .var => pure (.var, .unknown "")
  return { name, kind, type := some type, origin := .other pos, assumed := true }

/-- Declares what an `assume` introduces; a dotted name belongs to no scope. -/
def declareAssumed (sc : ScopeId) (name : String) (kind : AssumeKind) (pos : Pos) :
    Resolver Unit := do
  let id ← alloc (← assumedSymbol name kind pos)
  if name.toList.contains '.' then
    modify fun s => { s with assumed := (name, id) :: s.assumed }
  else declare sc id pos

/-- Whether a declaration has to stand in a scope, as it declares a name there. -/
def needsScope : Decl → Bool
  | .includes _ _ _ _ | .item (.inject _ _) | .refurbish _ _ _ => false
  | .assume _ name _ => !name.toList.contains '.'
  | _ => true

/-- The scope of a namespace with given declarations: one that is open already, or a new one. A
namespace from an `assume` has no scope, so nothing can be declared in it; what needs none is left in
the scope around it. -/
def namespaceScope (sc : ScopeId) (name : String) (pos : Pos) (ds : List Decl) :
    Resolver ScopeId := do
  let t := (← get).info.symbols
  match (t.lookupLocal? sc name).map t.symbol with
  | some { kind := .scope, members := some m, .. } => return m
  | some { kind := .scope, members := none, .. } =>
    if ds.any needsScope then fail (.noScope name pos) else return sc
  | _ =>
    let (id, members) ← declareOwner sc { name, kind := .scope, origin := .other pos } .scope pos
    setType id (.scope (← qualifiedName id))
    return members

mutual

def declareDecl (sc : ScopeId) : Decl → Resolver Unit
  | .item i => declareItem sc i
  | .assume info name kind => declareAssumed sc name kind info.span.start
  | .scope info name ds => do
    let members ← namespaceScope sc name info.span.start ds
    declareDecls members ds
  | .cls info name _ items => do
    let pos := info.span.start
    let (id, members) ← declareOwner sc { name, kind := .cls, origin := .other pos } .cls pos
    let full ← qualifiedName id
    setType id (.cls full (← newClass []))
    modify fun s => { s with classes := (full, id) :: s.classes }
    modifyInfo fun i => { i with classes := i.classes ++ [(info.span, name, id)] }
    items.forM (declareItem members)
  | .abstraction info name _ fs => do
    let pos := info.span.start
    let (_, members) ← declareOwner sc { name, kind := .abstraction, origin := .other pos } .cls pos
    fs.forM (declareFunc members)
    modifyInfo fun i => { i with capabilities := (name, { name }) :: i.capabilities }
  | .attributeDef info name _ _ => do
    let id ← alloc { name, kind := .attributeDef, origin := .other info.span.start }
    declare sc id info.span.start
  | .includes _ _ _ _ | .refurbish _ _ _ => pure ()

def declareDecls (sc : ScopeId) : List Decl → Resolver Unit
  | [] => pure ()
  | d :: ds => do
    declareDecl sc d
    declareDecls sc ds

end

end TastyLang.Resolution
