import TastyLang.Resolution.Expressions

/-!
# Resolving statements

Blocks and loop headers open scopes; a local variable is in scope after its own initializer.
-/

namespace TastyLang.Resolution

/-- Whether the function is the program's entry point. -/
def FuncState.isMain (st : FuncState) : Bool :=
  st.decl.name == "main" && st.decl.kind == .plain && st.scope == some SymbolTable.global

/-- The type of a variable without a written type: that of its value, or of the object that `new`
makes, in the variable's storage. -/
def inferredType (s : Storage) (value : Option (Expr × Ty)) : Ty :=
  match value with
  | none => .unknown ""
  | some (.new _ _ _, .pointer elem _) => s.typeOf elem
  | some (_, t) => s.typeOf t.deref

/-- Resolves the value of a variable and settles its type. -/
def varValue (p : Place) (d : VarDecl) (id : SymbolId) : Resolver Unit := do
  let value ← match d.value with
    | some v => do
      let t ← expr p v
      pure (some (v, t))
    | none => pure none
  match d.type, value with
  | some _, some (v, t) =>
    unless v.isNew do
      requireAssignable ((← symbolOf id).type.getD (.unknown "")) t v.pos
  | some _, none => pure ()
  | none, value => setType id (inferredType d.storage value)

/-- The written type of a variable, in its storage. -/
def writtenType (p : Place) (d : VarDecl) : Resolver (Option Ty) := do
  match d.type with
  | some te =>
    let t ← typeExpr p te
    return some (d.storage.typeOf t)
  | none => return none

def localVar (p : Place) (d : VarDecl) : Resolver Unit := do
  let type ← writtenType p d
  let id ← alloc { name := d.name, kind := .var, type, origin := .var d.info.span }
  varValue p d id
  declare p.scope id d.info.span.start
  modifyInfo fun i => { i with vars := i.vars.insert d.info.span id }

/-- The type of the elements of an iterated value. -/
def elemType (t : Ty) : Ty :=
  match t.deref.core with
  | .range elem => elem
  | .template _ [elem] => elem
  | _ => .unknown ""

/-- Declares the variable of a loop in a scope of its own. -/
def loopVar (p : Place) (span : Span) (name : String) (t : Ty) : Resolver Place := do
  let sc ← newScope (some p.scope) .block none
  let id ← alloc { name, kind := .var, type := some t, origin := .other span.start }
  declare sc id span.start
  modifyInfo fun i => { i with loopVars := i.loopVars.insert span id }
  return { p with scope := sc }

/-- The type of a counting variable: what its bounds have in common, or else a whole number. -/
def countType (p : Place) (low high : Ty) : Resolver Ty := do
  match Ty.unify (← get).info.hierarchy low.deref high.deref with
  | some t => return if t.isUnknown then primitive p.table "int" else t
  | none => return primitive p.table "int"

/-- Whether a trailing expression is only evaluated: it has no value, or the function is the entry
point. -/
def isEffect (p : Place) (implicit : Bool) (t : Ty) : Bool :=
  implicit && (t.isVoid || p.fn.any (·.isMain))

def noteReturn (t : Ty) : Resolver Unit := modify fun s => { s with returns := s.returns ++ [t] }

/-- Notes what a statement returns and checks it against a written result. -/
def returned (p : Place) (value : Option Expr) (implicit : Bool) : Resolver Unit := do
  match value with
  | none => noteReturn .void
  | some v =>
    let t ← expr p v
    unless isEffect p implicit t do
      noteReturn t
      match p.fn with
      | some fn =>
        if fn.decl.result.isSome && !v.isNew then
          requireAssignable ((← get).info.result fn.decl) t v.pos
      | none => pure ()

def iterated (p : Place) : Expr → Resolver Ty
  | .range span low high => rangeExpr p span low high
  | e => expr p e

mutual

def stmt (p : Place) : Stmt → Resolver Unit
  | .block b => block p b
  | .expr _ x => discard (expr p x)
  | .decl _ d => localVar p d
  | .branch _ _ cond yes no => do
    discard (expr p cond)
    block p yes
    match no with
    | some s => stmt p s
    | none => pure ()
  | .loop _ _ cond body => do
    match cond with
    | some c => discard (expr p c)
    | none => pure ()
    block p body
  | .count span _ name low high step body => do
    let l ← expr p low
    let h ← expr p high
    match step with
    | some s => discard (expr p s)
    | none => pure ()
    let t ← countType p l h
    let inner ← loopVar p span name t
    block inner body
  | .each span name storage items body => do
    let t ← iterated p items
    let inner ← loopVar p span name (storage.settled.typeOf (elemType t))
    block inner body
  | .ret _ value implicit _ _ => returned p value implicit
  | .brk _ _ | .cont _ _ | .inject _ _ => pure ()

def block (p : Place) : Block → Resolver Unit
  | .mk _ ss _ => do
    let sc ← newScope (some p.scope) .block none
    stmts { p with scope := sc } ss

def stmts (p : Place) : List Stmt → Resolver Unit
  | [] => pure ()
  | s :: ss => do
    stmt p s
    stmts p ss

end

end TastyLang.Resolution
