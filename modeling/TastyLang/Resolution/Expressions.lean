import TastyLang.Resolution.Signatures

/-!
# Resolving expressions

Every expression gets a type, every name a symbol, and every member access its form in C++. A name
that nothing declares passes through with an unknown type.
-/

namespace TastyLang.Resolution

def noteExpr (span : Span) (t : Ty) : Resolver Ty := do
  modifyInfo fun i => { i with types := i.types.insert span t }
  return t

def noteTypeName (span : Span) : Resolver Unit :=
  modifyInfo fun i => { i with typeNames := i.typeNames.insert span () }

def isTypeName (e : Expr) : Resolver Bool := return (← get).info.typeNames.contains e.span

/-! ### Functions and symbols -/

/-- The result of a function. An inferred one is found in the body, which is resolved first; a
function that is being resolved has an unknown result. -/
def funcResult (p : Place) (span : Span) : Resolver Ty := do
  match (← get).info.results[span]? with
  | some t => return t
  | none =>
    p.demand span
    return (← get).info.results.getD span (.unknown "")

def funcType (p : Place) (span : Span) : Resolver Ty := do
  let r ← funcResult p span
  let s ← get
  let params := match s.funcs[span]? with
    | some st => st.decl.params.map s.info.paramType
    | none => []
  return .func params r

/-- The type of a use of a symbol. A use that names a scope is noted. -/
def useType (p : Place) (span : Span) (id : SymbolId) : Resolver Ty := do
  let sym ← symbolOf id
  if sym.kind.isTypeName then
    noteTypeName span
    return sym.type.getD (.scope sym.name)
  match sym.kind, sym.origin with
  | .func, .func f => funcType p f
  | _, _ => return sym.type.getD (.unknown "")

/-- The symbol of a bare name: in scope, inherited by the class around it, assumed, an outer
namespace, or unknown. -/
def bind (p : Place) (name : String) : Resolver SymbolId := do
  let s ← get
  let inherited := (p.fn.bind (·.cls)).bind fun c => s.member? c name
  match ((s.info.symbols.lookup? p.scope name).or inherited).or (s.assumed.lookup name) with
  | some id => return id
  | none =>
    if s.isOuterNamespace p.table name then
      alloc { name, kind := .scope, type := some (.scope name) }
    else alloc { name, kind := .var, type := some (.unknown ""), unknown := true }

def ident (p : Place) (span : Span) (name : String) : Resolver Ty := do
  let id ← bind p name
  modifyInfo fun i => { i with uses := i.uses.insert span id }
  useType p span id

def selfType (p : Place) (span : Span) : Resolver Ty := do
  match p.fn with
  | none => return .unknown ""
  | some fn =>
    match fn.ext, fn.cls with
    | some e, _ => return e.self
    | none, some c =>
      modifyInfo fun i => { i with this := i.this.insert span () }
      return (((← symbolOf c).type).getD .absent).pointerTo 1
    | none, none => return .unknown ""

/-! ### Operators -/

def binaryType (p : Place) (span : Span) (op : Operator) (right : Expr) (l r : Ty) :
    Resolver Ty := do
  match op with
  | .assign =>
    unless right.isNew do requireAssignable l r span.start
    return l
  | .plusAssign | .minusAssign | .starAssign | .slashAssign | .percentAssign | .ampAssign
  | .pipeAssign | .caretAssign | .shiftLeftAssign | .shiftRightAssign => return l
  | .equal | .notEqual | .less | .greater | .lessEqual | .greaterEqual | .logicalAnd
  | .logicalOr => return primitive p.table "bool"
  | _ => return (Ty.unify (← get).info.hierarchy l r).getD l.deref

def peeled (elem : Ty) (level : Nat) : Ty := elem.pointerTo (level - 1)

def unaryType (p : Place) (op : Operator) (x : Ty) : Ty :=
  match op with
  | .not => primitive p.table "bool"
  | .star =>
    match x.deref.core with
    | .pointer elem level => peeled elem level
    | .smart elem _ => elem
    | _ => .unknown ""
  | .amp => x.deref.pointerTo 1
  | _ => x.deref

def indexType (p : Place) (x : Ty) : Ty :=
  match x.deref.core with
  | .template _ args => args.getLast?.getD (.unknown "")
  | .pointer elem level => peeled elem level
  | .prim q => if q.name = "text" then primitive p.table "char" else .unknown ""
  | _ => .unknown ""

def tupleIndexType (span : Span) (i : Nat) (x : Ty) : Resolver Ty := do
  match x.deref.core with
  | .tuple elems =>
    match elems[i]? with
    | some t => return t
    | none => failType (.tupleIndex i x.deref elems.length) span.start
  | _ => return .unknown ""

/-! ### Members -/

/-- The symbol behind an expression that names a scope. -/
def scopeSymbol? (info : Info) : Expr → Option SymbolId
  | .ident span _ => info.uses[span]?
  | .member _ x name _ =>
    match scopeSymbol? info x with
    | some owner =>
      (info.symbols.symbol owner).members.bind fun m => info.symbols.lookupLocal? m name
    | none => none
  | _ => none

/-- The form of a member access. -/
def accessForm (accessor : Accessor) (onTypeName : Bool) (receiver : Ty) : Access :=
  match accessor with
  | .scope => .scope
  | .arrow => .arrow 1
  | .dot =>
    if onTypeName then .scope
    else if 1 ≤ receiver.pointerDepth then .arrow receiver.pointerDepth
    else .dot

/-- Notes the form of a member access and finds the member, if the file declares it. -/
def access (span : Span) (x : Expr) (name : String) (accessor : Accessor) (receiver : Ty) :
    Resolver (Option SymbolId) := do
  let onTypeName ← isTypeName x
  modifyInfo fun i =>
    { i with access := i.access.insert span (accessForm accessor onTypeName receiver) }
  let s ← get
  if onTypeName then
    return (scopeSymbol? s.info x).bind fun owner =>
      (s.info.symbols.symbol owner).members.bind fun m => s.info.symbols.lookupLocal? m name
  return (s.classOf? receiver).bind fun c => s.member? c name

/-- The type of a member that the file does not declare, on a name of a scope. -/
def outerMember (p : Place) (m : Expr) : Resolver Ty := do
  let name := m.qualified
  if name = "" then return .unknown ""
  let s ← get
  if s.isOuterNamespace p.table name then
    noteTypeName m.span
    return .scope name
  match s.assumed.lookup name with
  | some id => useType p m.span id
  | none => return .unknown ""

/-- The type of a member outside of a call. -/
def memberType (p : Place) (m x : Expr) (name : String) (accessor : Accessor) (receiver : Ty) :
    Resolver Ty := do
  match ← access m.span x name accessor receiver with
  | none => if ← isTypeName x then outerMember p m else return .unknown ""
  | some id => useType p m.span id

/-! ### Calls -/

/-- The capabilities of the binding that a receiver's type was named through. -/
def capabilitiesOf? (receiver : Ty) : Resolver (Option Capabilities) := do
  let b := receiver.pointee.binding
  if b = "" then return none
  return (← get).info.capabilities.lookup b

/-- The extension of a name for a receiver. -/
def extension? (receiver : Ty) (name : String) : Resolver (Option Extension) := do
  let added := (← capabilitiesOf? receiver).bind fun c => c.added.lookup name
  match added with
  | some e => return some e
  | none =>
    let key := receiver.pointee.text
    return ((← get).refurbished.find? fun (k, n, _) => k == key && n == name).map (·.2.2)

def isSelf : Expr → Bool
  | .self _ => true
  | _ => false

/-- Requires that a member is forwarded when it is called through a binding. Inside the binding's
own functions `self` reaches every member. -/
def requireForwarded (p : Place) (m x : Expr) (name : String) (receiver : Ty) : Resolver Unit := do
  match ← capabilitiesOf? receiver with
  | none => pure ()
  | some c =>
    let inside := isSelf x && (p.fn.bind (·.ext)).any fun e => e.owner == c.name
    unless (c.forwarded.lookup name).isSome || inside do
      fail (.notForwarded c.name name m.pos)

def forwardedType (p : Place) (receiver : Ty) (name : String) : Resolver Ty := do
  match (← capabilitiesOf? receiver).bind fun c => c.forwarded.lookup name with
  | some f => funcType p f
  | none => return .unknown ""

/-- What a value of a type gives when it is called. -/
def callResult : Ty → Ty
  | .func _ r => r
  | .via _ t => callResult t
  | _ => .unknown ""

/-- The result of calling something that is not a member; a class gives an object of itself. -/
def plainCall (fn : Expr) (t : Ty) : Resolver Ty := do
  match fn with
  | .ident span _ =>
    match (← get).info.use? span with
    | some { kind := .cls, type := some c, .. } => return c
    | _ => return callResult t
  | _ => return callResult t

/-- The result of calling a member that is no extension. -/
def memberCall (p : Place) (m x : Expr) (name : String) (accessor : Accessor) (receiver : Ty) :
    Resolver Ty := do
  match ← access m.span x name accessor receiver with
  | none =>
    let t ← if ← isTypeName x then outerMember p m else forwardedType p receiver name
    return callResult (← noteExpr m.span t)
  | some id =>
    let sym ← symbolOf id
    match sym.kind, sym.type with
    | .cls, some t =>
      noteTypeName m.span
      noteExpr m.span t
    | _, _ =>
      let t ← useType p m.span id
      return callResult (← noteExpr m.span t)

/-- The result of calling a member: an extension of the receiver's type, or a real one. -/
def receiverCall (p : Place) (call : Span) (m x : Expr) (name : String) (accessor : Accessor)
    (receiver : Ty) : Resolver Ty := do
  if ← isTypeName x then
    return ← memberCall p m x name accessor receiver
  match ← extension? receiver name with
  | some e =>
    modifyInfo fun i => { i with
      extensionCalls := i.extensionCalls.insert call ⟨e, receiver.pointerDepth⟩ }
    discard (noteExpr m.span (.unknown ""))
    funcResult p e.decl
  | none =>
    requireForwarded p m x name receiver
    memberCall p m x name accessor receiver

/-! ### All expressions -/

mutual

/-- Resolves an expression and gives its type. -/
def expr (p : Place) : Expr → Resolver Ty
  | .literal span kind value => noteExpr span (Ty.ofLiteral p.table kind value)
  | .ident span name => do noteExpr span (← ident p span name)
  | .self span => do noteExpr span (← selfType p span)
  | .paren span x => do noteExpr span (← expr p x)
  | .binary span op l r => do
    let lt ← expr p l
    let rt ← expr p r
    noteExpr span (← binaryType p span op r lt rt)
  | .unary span op x _ => do
    let t ← expr p x
    noteExpr span (unaryType p op t)
  | .call span (.member mspan x name accessor) args => do
    let receiver ← expr p x
    let t ← receiverCall p span (.member mspan x name accessor) x name accessor receiver
    exprs p args
    noteExpr span t
  | .call span fn args => do
    let ft ← expr p fn
    let t ← plainCall fn ft
    exprs p args
    noteExpr span t
  | .member span x name accessor => do
    let receiver ← expr p x
    noteExpr span (← memberType p (.member span x name accessor) x name accessor receiver)
  | .index span x i => do
    let t ← expr p x
    discard (expr p i)
    noteExpr span (indexType p t)
  | .new span type args => do
    exprs p args
    let t ← typeExpr p type
    noteExpr span (t.pointerTo 1)
  | .delete span x => do
    discard (expr p x)
    noteExpr span .void
  | .cast span x kind type => do
    let src ← expr p x
    let dst ← typeExpr p type
    match Ty.checkCast src dst kind with
    | .ok _ => noteExpr span dst
    | .error cause => failType cause span.start
  | .tuple span elems => do
    let ts ← exprTypes p elems
    noteExpr span (.tuple (ts.map (·.deref)))
  | .tupleIndex span x i => do
    let t ← expr p x
    noteExpr span (← tupleIndexType span i t)
  | .range span _ _ => failType .range span.start
  | .ternary span c y n => do
    discard (expr p c)
    let a ← expr p y
    let b ← expr p n
    noteExpr span ((Ty.unify (← get).info.hierarchy a b).getD a)

def exprs (p : Place) : List Expr → Resolver Unit
  | [] => pure ()
  | e :: es => do
    discard (expr p e)
    exprs p es

def exprTypes (p : Place) : List Expr → Resolver (List Ty)
  | [] => pure []
  | e :: es => do
    let t ← expr p e
    return t :: (← exprTypes p es)

end

/-- Resolves the bounds of a range, the one place where a range may stand. -/
def rangeExpr (p : Place) (span : Span) (low high : Expr) : Resolver Ty := do
  let l ← expr p low
  let h ← expr p high
  match Ty.unify (← get).info.hierarchy l.deref h.deref with
  | some t => noteExpr span (.range t)
  | none => failType (.rangeBounds l h) span.start

end TastyLang.Resolution
