import TastyLang.Resolution.Info

/-!
# Ownership of raw pointers

A local raw pointer that is made with `new` is owned by its block and deleted at the block's closing
brace, unless the block ends by leaving. A `return`, `break` or `continue` deletes what the blocks
on its way out own. A `delete` in the text hands a pointer over to the program: from there on it is
not deleted again. `FuncDecl.settle` writes these notes into the body of a function.
-/

namespace TastyLang

namespace Ownership

/-- A block that is open: whether it is the body of a loop, and the pointers made in it so far. -/
structure Frame where
  loop : Bool
  vars : List Owned := []
  deriving Inhabited

/-- The open blocks, the innermost first, and the pointers that the program deletes itself. -/
structure Ledger where
  frames : List Frame := []
  released : List Pos := []
  deriving Inhabited

abbrev Settling := StateM Ledger

/-- What settling a body needs to know: the types and names of the file, and whether the function
is the program's entry point. -/
structure Context where
  info : Info
  inMain : Bool

/-- Whether a pointer is still to be deleted. -/
def Ledger.isLive (l : Ledger) (o : Owned) : Bool := !l.released.contains o.pos

/-- The declaration of the variable that a name refers to. -/
def Context.varOf? (c : Context) (span : Span) : Option Pos := (c.info.varOf? span).map (·.start)

/-- Notes the pointers that an expression deletes. -/
def release (c : Context) (e : Expr) : Settling Unit :=
  modify fun l => { l with released := l.released ++ e.deleted.filterMap c.varOf? }

def releaseIn (c : Context) (e : Option Expr) : Settling Unit :=
  match e with
  | some e => release c e
  | none => pure ()

/-- Notes a pointer made in the innermost block. -/
def own (o : Owned) : Settling Unit :=
  modify fun l =>
    match l.frames with
    | f :: fs => { l with frames := { f with vars := f.vars ++ [o] } :: fs }
    | [] => l

/-- The pointer that a declaration makes, if it makes one. -/
def made? (d : VarDecl) : Option Owned :=
  match d.storage.kind, d.value with
  | .rawPointer level, some v => if v.isNew then some ⟨d.name, level, d.info.span.start⟩ else none
  | _, _ => none

/-- The blocks that an exit leaves: all, or those up to the innermost loop. -/
def leftFrames (toLoop : Bool) : List Frame → List Frame
  | [] => []
  | f :: fs => if toLoop && f.loop then [f] else f :: leftFrames toLoop fs

/-- What an exit deletes: the live pointers of the blocks it leaves, but not the one it returns. -/
def Ledger.deletes (l : Ledger) (kept : Option Pos) (toLoop : Bool) : List Owned :=
  (leftFrames toLoop l.frames).flatMap fun f =>
    f.vars.filter fun o => l.isLive o && kept != some o.pos

/-- Whether an expression reads one of the pointers. -/
def reads (c : Context) (e : Expr) (os : List Owned) : Bool :=
  e.idents.any fun s => os.any fun o => c.varOf? s == some o.pos

/-- The notes for an exit; none when it deletes nothing. -/
def exitOf (c : Context) (value : Option Expr) (kept : Option Pos) (toLoop : Bool) :
    Settling (Option Exit) := do
  match (← get).deletes kept toLoop with
  | [] => return none
  | os => return some ⟨os, value.any fun v => reads c v os⟩

/-- The variable whose value is returned as it is. -/
def kept? (c : Context) : Expr → Option Pos
  | .ident span _ => c.varOf? span
  | _ => none

/-- Whether a trailing expression is only evaluated. -/
def isEffect (c : Context) (value : Option Expr) (implicit : Bool) : Bool :=
  implicit && value.any fun v => (c.info.typeOf v).isVoid || c.inMain

/-- Whether a statement leaves its block. -/
def leaves : Stmt → Bool
  | .ret _ _ _ effect _ => !effect
  | .brk _ _ | .cont _ _ => true
  | _ => false

def openFrame (loop : Bool) : Settling Unit :=
  modify fun l => { l with frames := { loop } :: l.frames }

/-- Closes the innermost block and gives the live pointers made in it. -/
def closeFrame : Settling (List Owned) := do
  let l ← get
  match l.frames with
  | [] => return []
  | f :: fs =>
    set { l with frames := fs }
    return f.vars.filter l.isLive

mutual

def settleStmt (c : Context) : Stmt → Settling Stmt
  | .block b => return .block (← settleBlock c false b)
  | .expr span x => do
    release c x
    return .expr span x
  | .decl span d => do
    releaseIn c d.value
    match made? d with
    | some o => own o
    | none => pure ()
    return .decl span d
  | .branch span negate cond yes no => do
    release c cond
    let yes' ← settleBlock c false yes
    match no with
    | some s =>
      let s' ← settleStmt c s
      return .branch span negate cond yes' (some s')
    | none => return .branch span negate cond yes' none
  | .loop span negate cond body => do
    releaseIn c cond
    return .loop span negate cond (← settleBlock c true body)
  | .count span kind name low high step body => do
    release c low
    release c high
    releaseIn c step
    return .count span kind name low high step (← settleBlock c true body)
  | .each span name storage items body => do
    release c items
    return .each span name storage.settled items (← settleBlock c true body)
  | .ret span value implicit _ _ => do
    releaseIn c value
    if isEffect c value implicit then return .ret span value implicit true none
    let exit ← exitOf c value (value.bind (kept? c)) false
    return .ret span value implicit false exit
  | .brk span _ => return .brk span (← exitOf c none none true)
  | .cont span _ => return .cont span (← exitOf c none none true)
  | .inject span text => return .inject span text

def settleBlock (c : Context) (loop : Bool) : Block → Settling Block
  | .mk span ss _ => do
    openFrame loop
    let ss' ← settleStmts c ss
    let owned ← closeFrame
    return .mk span ss' (if ss'.getLast?.any leaves then [] else owned)

def settleStmts (c : Context) : List Stmt → Settling (List Stmt)
  | [] => return []
  | s :: ss => do
    let s' ← settleStmt c s
    return s' :: (← settleStmts c ss)

end

end Ownership

/-- What settling the body of a function needs to know. -/
def FuncDecl.ownership (info : Info) (atTop : Bool) (f : FuncDecl) : Ownership.Context :=
  ⟨info, atTop && f.name == "main" && f.kind == .plain⟩

/-- The function with settled storage and the notes on ownership. -/
def FuncDecl.settle (info : Info) (atTop : Bool) (f : FuncDecl) : FuncDecl :=
  { f with
    params := f.params.map fun p => { p with storage := p.storage.settled }
    body := f.body.map fun b => (Ownership.settleBlock (f.ownership info atTop) false b {}).1 }

def Item.settle (info : Info) (atTop : Bool) : Item → Item
  | .func f => .func (f.settle info atTop)
  | i => i

mutual

def Decl.settle (info : Info) (atTop : Bool) : Decl → Decl
  | .item i => .item (i.settle info atTop)
  | .scope i name ds => .scope i name (Decl.settleAll info false ds)
  | .cls i name bases items => .cls i name bases (items.map (Item.settle info false))
  | .abstraction i name target fs =>
    .abstraction i name target (fs.map (FuncDecl.settle info false))
  | .refurbish i target fs => .refurbish i target (fs.map (FuncDecl.settle info atTop))
  | d => d

def Decl.settleAll (info : Info) (atTop : Bool) : List Decl → List Decl
  | [] => []
  | d :: ds => d.settle info atTop :: Decl.settleAll info atTop ds

end

/-- The file with settled storage and the notes on ownership. -/
def File.settle (info : Info) (f : File) : File :=
  { f with decls := Decl.settleAll info true f.decls }

end TastyLang
