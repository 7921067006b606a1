import TastyLang.Resolution.Statements

/-!
# Bodies

The third pass over a file: values of variables and bodies of functions in the order of the text. A
function whose result is inferred is resolved when it is first used.
-/

namespace TastyLang.Resolution

/-- The result of a function from the values it returns. -/
def inferResult (table : Table) (st : FuncState) (returns : List Ty) : Resolver Ty := do
  match returns with
  | [] =>
    if st.decl.name == "main" && st.scope == some SymbolTable.global then
      return primitive table "int"
    return .void
  | ts =>
    match Ty.common (← get).info.hierarchy ts with
    | some t => return t.deref
    | none => failType (.ambiguous st.decl.name (ts.map (·.text))) st.decl.info.span.start

/-- Declares a parameter and checks its value. -/
def bodyParam (p : Place) (q : Param) : Resolver Unit := do
  match (← get).info.params[q.span]? with
  | none => pure ()
  | some id =>
    declare p.scope id q.span.start
    match q.value with
    | some v =>
      let t ← expr p v
      requireAssignable ((← symbolOf id).type.getD (.unknown "")) t v.pos
    | none => pure ()

def setPhase (span : Span) (phase : Phase) : Resolver Unit :=
  modify fun s => { s with funcs := s.funcs.modify span fun st => { st with phase } }

/-- Resolves the parameters and the body of a function, and its result if it is inferred. -/
def funcBody (p : Place) (st : FuncState) : Resolver Unit := do
  st.decl.params.forM (bodyParam p)
  match st.decl.body with
  | some b => block p b
  | none => pure ()
  unless (← get).info.results.contains st.decl.info.span do
    let t ← inferResult p.table st (← get).returns
    modifyInfo fun i => { i with results := i.results.insert st.decl.info.span t }

/-- Resolves a function in a scope of its own. What it returns is kept apart from what the function
that asks for it returns. -/
def enterFunc (table : Table) (demand : Span → Resolver Unit) (st : FuncState) :
    Resolver Unit := do
  let outer := (← get).returns
  modify fun s => { s with returns := [] }
  let sc ← newScope st.scope .func none
  funcBody { table, scope := sc, fn := some st, demand } st
  modify fun s => { s with returns := outer }

/-- Resolves a function once. The number of steps bounds how many functions can be waiting for one
another; a function that is being resolved is not entered again. -/
def resolveFunc (table : Table) : Nat → Span → Resolver Unit
  | 0, _ => pure ()
  | n + 1, span => do
    match (← get).funcs[span]? with
    | none => pure ()
    | some st =>
      if st.phase = .fresh then
        setPhase span .active
        enterFunc table (resolveFunc table n) st
        setPhase span .done

def enumBody (p : Place) (d : EnumDecl) : Resolver Unit := do
  let t := (← get).info.symbols
  let members := (t.lookupLocal? p.scope d.name).bind fun id => (t.symbol id).members
  d.members.forM fun m =>
    match m.value with
    | some v => discard (expr { p with scope := members.getD p.scope } v)
    | none => pure ()

def itemBody (p : Place) : Item → Resolver Unit
  | .var d => do
    match (← get).info.vars[d.info.span]? with
    | some id => varValue p d id
    | none => pure ()
  | .func d => p.demand d.info.span
  | .enum d => enumBody p d
  | .inject _ _ => pure ()

mutual

def body (p : Place) : Decl → Resolver Unit
  | .item i => itemBody p i
  | .scope info name ds => do
    let members ← namespaceScope p.scope name info.span.start ds
    bodies { p with scope := members } ds
  | .cls info _ _ items => do
    match (← get).info.classSymbol? info.span with
    | some id =>
      let sym ← symbolOf id
      items.forM (itemBody { p with scope := sym.members.getD p.scope })
    | none => pure ()
  | .abstraction _ _ _ fs | .refurbish _ _ fs => fs.forM fun f => p.demand f.info.span
  | .includes _ _ _ _ | .assume _ _ _ | .attributeDef _ _ _ _ => pure ()

def bodies (p : Place) : List Decl → Resolver Unit
  | [] => pure ()
  | d :: ds => do
    body p d
    bodies p ds

end

/-- All three passes over a file. -/
def passes (table : Table) (file : File) : Resolver Unit := do
  let place : Place := { table, scope := SymbolTable.global, demand := fun _ => pure () }
  declareDecls SymbolTable.global file.decls
  signatures place file.decls
  let steps := (← get).funcs.size + 1
  bodies { place with demand := resolveFunc table steps } file.decls

end TastyLang.Resolution

namespace TastyLang

/-- What the names and types of a file are. -/
def File.resolve (table : Table) (file : File) : Except ResolveError Info := do
  let (_, s) ← (Resolution.passes table file).run {}
  return s.info

end TastyLang
