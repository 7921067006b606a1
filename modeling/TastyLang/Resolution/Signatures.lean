import TastyLang.Resolution.Declare

/-!
# Signatures

The second pass over a file: bases of classes, targets of abstract and refurbish declarations, and
the written types of parameters, results and fields.
-/

namespace TastyLang.Resolution

/-- Resolves the parameters and the written result of a function. A constructor, a destructor and a
prototype without a written result give nothing. -/
def funcSignature (p : Place) (f : FuncDecl) : Resolver Unit := do
  f.params.forM fun q => do
    let t ← typeExpr p q.type
    let id ← alloc { name := q.name, kind := .param, type := some (q.storage.settled.typeOf t)
                     origin := .other q.span.start }
    modifyInfo fun i => { i with params := i.params.insert q.span id }
  let result : Option Ty ← match f.result with
    | some r => some <$> typeExpr p r
    | none =>
      if f.kind == .constructor || f.kind == .destructor || f.body.isNone then pure (some .void)
      else pure none
  match result with
  | some t => modifyInfo fun i => { i with results := i.results.insert f.info.span t }
  | none => pure ()

def isNameChar (c : Char) : Bool :=
  c == '_' || ('a' ≤ c && c ≤ 'z') || ('A' ≤ c && c ≤ 'Z') || ('0' ≤ c && c ≤ '9')

/-- The C++ name of an extension: its owner with all but letters and digits as underscores, none
of them at the end, and its name. -/
def extensionName (owner name : String) : String :=
  let clean := owner.toList.map fun c => if isNameChar c then c else '_'
  String.ofList ((clean.reverse.dropWhile (· = '_')).reverse) ++ "_" ++ name

def addExtension (e : Extension) : Resolver Unit := do
  modifyInfo fun i => { i with extensions := i.extensions ++ [e] }
  modify fun s => { s with
    funcs := s.funcs.modify e.decl fun st => { st with ext := some e } }

/-- Changes the capabilities of a binding. -/
def modifyCapabilities (binding : String) (f : Capabilities → Capabilities) : Resolver Unit :=
  modifyInfo fun i =>
    match i.capabilities.lookup binding with
    | some c => { i with capabilities := (binding, f c) :: i.capabilities }
    | none => i

/-- A function of an abstract binding is forwarded to the target, or, with a body, added to it. -/
def bindingFunc (p : Place) (binding : String) (self : Ty) (f : FuncDecl) : Resolver Unit := do
  funcSignature p f
  if f.body.isNone then
    modifyCapabilities binding fun c => { c with forwarded := (f.name, f.info.span) :: c.forwarded }
  else
    let e : Extension :=
      ⟨binding, f.name, extensionName binding f.name, f.info.span, .reference self false⟩
    modifyCapabilities binding fun c => { c with added := (f.name, e) :: c.added }
    addExtension e

def abstractionSignature (p : Place) (name : String) (target : TypeExpr) (fs : List FuncDecl) :
    Resolver Unit := do
  let t ← typeExpr p target
  modifyCapabilities name fun c => { c with target := some t }
  let self ← named t name
  let symbols := (← get).info.symbols
  match symbols.lookupLocal? p.scope name with
  | none => pure ()
  | some id =>
    setType id self
    let members := ((symbols.symbol id).members).getD p.scope
    fs.forM (bindingFunc { p with scope := members } name self)

/-- Whether a name is found without a scope: a primitive, or a dotted name from `assume`. -/
def State.finds (s : State) (table : Table) (name : String) : Bool :=
  (table.primitive? name).isSome || (s.assumed.lookup name).isSome

/-- The place inside of a block that opens a namespace. -/
def Place.within (p : Place) (t : SymbolTable) (name : String) (pos : Pos) (members : ScopeId) : Place :=
  { p with scope := members, bare := if t.isBare p.scope name then some (name, pos) else none }

/-- The scope of what stands at a place; in a block of an assumed namespace there is none. -/
def Place.home (p : Place) : Option ScopeId := if p.bare.isSome then none else some p.scope

/-- Requires that the names of written types are found at a place, which all are where there is a
scope. -/
def requireFound (p : Place) (names : List String) : Resolver Unit := do
  match p.bare with
  | none => pure ()
  | some (name, pos) => unless names.all ((← get).finds p.table) do fail (.noScope name pos)

def refurbishSignature (p : Place) (target : TypeExpr) (fs : List FuncDecl) : Resolver Unit := do
  requireFound p (target.words ++ fs.flatMap (·.words))
  let t ← typeExpr p target
  fs.forM fun f => do
    noteFunc f { decl := f, scope := p.home }
    funcSignature p f
    let e : Extension :=
      ⟨target.text, f.name, extensionName target.text f.name, f.info.span, .reference t false⟩
    modify fun s => { s with refurbished := (t.text, f.name, e) :: s.refurbished }
    addExtension e

def varSignature (p : Place) (d : VarDecl) : Resolver Unit := do
  match d.type with
  | none => pure ()
  | some te =>
    let t ← typeExpr p te
    match (← get).info.vars[d.info.span]? with
    | some id => setType id (d.storage.typeOf t)
    | none => pure ()

def itemSignature (p : Place) : Item → Resolver Unit
  | .var d => varSignature p d
  | .func d => funcSignature p d
  | .enum _ | .inject _ _ => pure ()

/-- Resolves a base of a class; only classes count. -/
def baseSignature (p : Place) (number : Nat) (base : TypeExpr) : Resolver Unit := do
  let t ← typeExpr p base
  match t.core with
  | .cls _ _ => addBase number t
  | _ => pure ()

def classSignature (p : Place) (id : SymbolId) (bases : List TypeExpr) (items : List Item) :
    Resolver Unit := do
  let sym ← symbolOf id
  match sym.type with
  | some (.cls _ number) => bases.forM (baseSignature p number)
  | _ => pure ()
  items.forM (itemSignature { p with scope := sym.members.getD p.scope })

mutual

def signature (p : Place) : Decl → Resolver Unit
  | .item i => itemSignature p i
  | .scope info name ds => do
    let t := (← get).info.symbols
    let members ← namespaceScope p.scope name info.span.start ds
    signatures (p.within t name info.span.start members) ds
  | .cls info _ bases items => do
    match (← get).info.classSymbol? info.span with
    | some id => classSignature p id bases items
    | none => pure ()
  | .abstraction _ name target fs => abstractionSignature p name target fs
  | .refurbish _ target fs => refurbishSignature p target fs
  | .includes _ _ _ _ | .assume _ _ _ | .attributeDef _ _ _ _ => pure ()

def signatures (p : Place) : List Decl → Resolver Unit
  | [] => pure ()
  | d :: ds => do
    signature p d
    signatures p ds

end

end TastyLang.Resolution
