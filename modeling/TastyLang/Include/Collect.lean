import TastyLang.Resolution.Info
import TastyLang.Text.Pieces

/-!
# The includes of a file

Directives of the file come first-hand; other includes follow from what is used: tuples, smart
pointers, moves, function types, primitives with a header, and names that the built-in table lists.
A use that the header shows asks for the header, any other for the source. `File.requests` lists
all of them in the order of the text.
-/

/-! ### Include lists

The includes of a header and of the source beside it. An entry stands in one of the lists only, at
the place of its first mention; what the header needs, the source does not repeat.
-/

namespace TastyLang

/-- An include directive. -/
structure IncludeEntry where
  path : String
  isLocal : Bool := false
  deriving DecidableEq, Inhabited

/-- The entry as a line of C++. -/
def IncludeEntry.directive (e : IncludeEntry) : String :=
  if e.isLocal then "#include \"" ++ e.path ++ "\"" else "#include <" ++ e.path ++ ">"

/-- The entries asked for so far: by the header, and by the source. -/
structure IncludeSet where
  header : List IncludeEntry := []
  sourced : List IncludeEntry := []
  deriving DecidableEq, Inhabited

namespace IncludeSet

/-- Asks for an entry. One without a path counts for nothing. -/
def add (s : IncludeSet) (e : IncludeEntry) (inHeader : Bool) : IncludeSet :=
  if e.path = "" || s.header.contains e then s
  else if inHeader then { s with header := s.header ++ [e] }
  else if s.sourced.contains e then s
  else { s with sourced := s.sourced ++ [e] }

/-- The entries of the source: those that the header does not have. -/
def source (s : IncludeSet) : List IncludeEntry := s.sourced.filter fun e => !s.header.contains e

def addAll (s : IncludeSet) (es : List (IncludeEntry × Bool)) : IncludeSet :=
  es.foldl (fun s e => s.add e.1 e.2) s

end IncludeSet

/-- The extension of headers when none is chosen. -/
def defaultHeaderExt : String := ".hpp"

/-- The header that a module is compiled to. -/
def moduleHeader (module ext : String) : String :=
  Text.replaceChar '.' "/" module ++ (if ext = "" then defaultHeaderExt else ext)

end TastyLang

namespace TastyLang

namespace Include

/-- What collecting needs to know. Without the results of resolution every name counts as one that
the file does not declare. -/
structure Context where
  table : Table
  info : Option Info
  headerExt : String

namespace Context

variable (c : Context)

def feature (name : String) : List IncludeEntry := [⟨c.table.feature name, false⟩]

/-- The header that the use of a dotted name asks for. -/
def named (name : String) : List IncludeEntry :=
  match c.table.headerFor? name with
  | some h => [⟨h, false⟩]
  | none => []

/-- Whether a name refers to nothing that the file declares. -/
def unbound (span : Span) : Bool :=
  match c.info with
  | none => true
  | some info =>
    match info.use? span with
    | some s => s.origin == .none
    | none => true

/-- What the target of an abstract binding is. -/
def target? (name : String) : Option Ty :=
  c.info.bind fun info => (info.capabilities.lookup name).bind (·.target)

def storage (s : Storage) : List IncludeEntry :=
  match s.kind with
  | .shared => c.feature "shared"
  | .unique => c.feature "unique"
  | .moved => c.feature "move"
  | .rawPointer level => if 1 < level then c.feature "shared" else []
  | .unresolved | .value | .reference _ => []

mutual

/-- What a type asks for. -/
def ty : Ty → List IncludeEntry
  | .tuple elems => c.feature "tuple" ++ tys elems
  | .smart elem unique => c.feature (if unique then "unique" else "shared") ++ ty elem
  | .func params result => c.feature "function" ++ tys params ++ ty result
  | .prim p => [⟨p.header, false⟩]
  | .cls name _ | .enum name | .unknown name => if name = "" then [] else c.named name
  | .template base args => tys args ++ c.named base.name
  | .pointer elem _ | .reference elem _ | .range elem => ty elem
  | .via _ t => ty t
  | .void | .null | .scope _ | .invalid | .absent => []

def tys : List Ty → List IncludeEntry
  | [] => []
  | t :: ts => ty t ++ tys ts

end

mutual

/-- What a written type asks for. -/
def typeExpr : TypeExpr → List IncludeEntry
  | .tuple _ elems _ => c.feature "tuple" ++ typeExprs elems
  | .func _ params result _ =>
    c.feature "function" ++ typeExprs params ++
      match result with
      | some r => typeExpr r
      | none => []
  | .named _ name args _ =>
    (match c.table.primitive? name with
      | some p => [⟨p.header, false⟩]
      | none =>
        match c.target? name with
        | some t => c.ty t
        | none => c.named name) ++ typeExprs args

def typeExprs : List TypeExpr → List IncludeEntry
  | [] => []
  | t :: ts => typeExpr t ++ typeExprs ts

end

mutual

/-- What an expression asks for. A chain of dots on a name that the file does not declare counts as
one name. -/
def expr : Expr → List IncludeEntry
  | .literal _ _ _ | .self _ => []
  | .ident span name => if c.unbound span then c.named name else []
  | .member span x name accessor =>
    let q := (Expr.member span x name accessor).qualified
    let outer := match x.root? with
      | some (root, _) => c.unbound root
      | none => false
    if q ≠ "" && outer then c.named q else expr x
  | .binary _ _ l r => expr l ++ expr r
  | .unary _ _ x _ | .delete _ x | .paren _ x => expr x
  | .call _ fn args => expr fn ++ exprs args
  | .index _ x i => expr x ++ expr i
  | .new _ t args => c.typeExpr t ++ exprs args
  | .cast _ x _ t => expr x ++ c.typeExpr t
  | .tuple _ elems => c.feature "tuple" ++ exprs elems
  | .tupleIndex _ x _ => c.feature "tuple" ++ expr x
  | .range _ low high => expr low ++ expr high
  | .ternary _ cond yes no => expr cond ++ expr yes ++ expr no

def exprs : List Expr → List IncludeEntry
  | [] => []
  | e :: es => expr e ++ exprs es

end

def exprIn : Option Expr → List IncludeEntry
  | some e => c.expr e
  | none => []

/-- What the storage and the type of a variable ask for. -/
def declared (d : VarDecl) : List IncludeEntry :=
  c.storage d.storage ++
    match d.type, c.info with
    | some t, _ => c.typeExpr t
    | none, some info => c.ty (info.varType d)
    | none, none => []

mutual

def stmt : Stmt → List IncludeEntry
  | .block b => block b
  | .expr _ x => c.expr x
  | .decl _ d => c.declared d ++ c.exprIn d.value
  | .branch _ _ cond yes no =>
    c.expr cond ++ block yes ++
      match no with
      | some s => stmt s
      | none => []
  | .loop _ _ cond body => c.exprIn cond ++ block body
  | .count _ _ _ low high step body => c.expr low ++ c.expr high ++ c.exprIn step ++ block body
  | .each _ _ s items body => c.storage s ++ c.expr items ++ block body
  | .ret _ value _ _ _ => c.exprIn value
  | .brk _ _ | .cont _ _ | .inject _ _ => []

def block : Block → List IncludeEntry
  | .mk _ ss _ => stmts ss

def stmts : List Stmt → List IncludeEntry
  | [] => []
  | s :: ss => stmt s ++ stmts ss

end

/-- Entries asked for by the header or by the source. -/
def placed (inHeader : Bool) (es : List IncludeEntry) : List (IncludeEntry × Bool) :=
  es.map (·, inHeader)

/-- What a function asks for: its signature where it is shown, its body in the source. -/
def func (f : FuncDecl) (shown : Bool) : List (IncludeEntry × Bool) :=
  let params := f.params.flatMap fun p =>
    c.storage p.storage ++ c.typeExpr p.type ++ c.exprIn p.value
  let result := match f.result, c.info with
    | some t, _ => c.typeExpr t
    | none, some info => c.ty (info.result f)
    | none, none => []
  let body := match f.body with
    | some b => c.block b
    | none => []
  placed shown (params ++ result) ++ placed false body

/-- What a global or a field asks for. Values of constants and of fields are part of the header. -/
def var (d : VarDecl) (inClass shown : Bool) : List (IncludeEntry × Bool) :=
  let ms := d.info.modifiers
  let valueShown := shown && (ms.has .constexpr || (inClass && !ms.has .static))
  placed shown (c.declared d) ++ placed valueShown (c.exprIn d.value)

/-- What the functions of an abstract or refurbish declaration ask for; forwarded ones give no
code. -/
def added (fs : List FuncDecl) (shown : Bool) : List (IncludeEntry × Bool) :=
  fs.flatMap fun f =>
    match c.info with
    | none => if f.body.isSome then c.func f shown else []
    | some info =>
      match info.extensionFor? f with
      | some e => placed shown (c.ty e.self) ++ c.func f shown
      | none => []

def requested (info : DeclInfo) (shown : Bool) : List (IncludeEntry × Bool) :=
  placed shown (info.generated.includes.map fun r => ⟨r.path, r.isLocal⟩)

def item (inClass visible : Bool) (i : Item) : List (IncludeEntry × Bool) :=
  let shown := visible && !i.info.generated.noHeader
  requested i.info shown ++
    match i with
    | .var d => c.var d inClass shown
    | .func f => c.func f shown
    | .enum d => placed shown (d.members.flatMap fun m => c.exprIn m.value)
    | .inject _ _ => []

mutual

/-- What a declaration asks for; `visible` is false inside of what the header leaves out. -/
def decl (visible : Bool) : Decl → List (IncludeEntry × Bool)
  | .item i => c.item false visible i
  | .includes info kind path isLocal =>
    let e : IncludeEntry :=
      if kind.isModule then ⟨moduleHeader path c.headerExt, true⟩ else ⟨path, isLocal⟩
    requested info (visible && !info.generated.noHeader) ++ [(e, !kind.inSource)]
  | .scope info _ ds =>
    let shown := visible && !info.generated.noHeader
    requested info shown ++ decls shown ds
  | .cls info _ bases items =>
    let shown := visible && !info.generated.noHeader
    requested info shown ++ placed shown (c.typeExprs bases)
      ++ items.flatMap (c.item true shown)
  | .abstraction info _ _ fs | .refurbish info _ fs =>
    let shown := visible && !info.generated.noHeader
    requested info shown ++ c.added fs shown
  | .assume info _ _ | .attributeDef info _ _ _ =>
    requested info (visible && !info.generated.noHeader)

def decls (visible : Bool) : List Decl → List (IncludeEntry × Bool)
  | [] => []
  | d :: ds => decl visible d ++ decls visible ds

end

end Context

end Include

/-- All includes that a file asks for, in the order of the text. -/
def File.requests (file : File) (c : Include.Context) : List (IncludeEntry × Bool) :=
  c.decls true file.decls

/-- The includes of a file. -/
def File.includes (file : File) (table : Table) (info : Option Info) (headerExt : String) :
    IncludeSet :=
  ({} : IncludeSet).addAll (file.requests ⟨table, info, headerExt⟩)

end TastyLang
