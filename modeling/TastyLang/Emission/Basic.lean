import TastyLang.Resolution.Info
import TastyLang.Text.Pieces

/-!
# Writing C++: pieces

The errors of emission, and the texts of types, expressions and variables in C++.
-/

/-! ### The printer

A `Printer` writes C++ text and keeps every construct on the line of the construct it comes from.
`align` moves to a line: down by newlines, on the same line by a blank, and to a fresh line when the
text is already further down. The text is kept backwards.
-/

namespace TastyLang

structure Printer where
  /-- the characters written so far, the last one first -/
  output : List Char := []
  depth : Nat := 0
  /-- the line being written, from 1 -/
  line : Int := 1
  atLineStart : Bool := true
  deriving DecidableEq, Inhabited

namespace Printer

/-- Ends the line; a blank at its end is dropped. -/
def newline (p : Printer) : Printer :=
  let kept := match p.output with
    | ' ' :: cs => cs
    | cs => cs
  { p with output := '\n' :: kept, line := p.line + 1, atLineStart := true }

/-- Ends `n` lines. -/
def newlines (p : Printer) : Nat → Printer
  | 0 => p
  | n + 1 => newlines p.newline n

/-- Ends the line unless it is empty. -/
def freshLine (p : Printer) : Printer := if p.atLineStart then p else p.newline

/-- Moves to where a construct of line `line` belongs. -/
def align (p : Printer) (line : Int) : Printer :=
  if p.line < line then p.newlines (line - p.line).toNat
  else if line = p.line then
    if p.atLineStart then p else { p with output := ' ' :: p.output }
  else p.freshLine

/-- Writes a text; at the start of a line it is indented first. -/
def write (p : Printer) (s : String) : Printer :=
  match s.toList with
  | [] => p
  | c :: cs =>
    let indent := if p.atLineStart && c ≠ '\n' then List.replicate p.depth '\t' else []
    let text := c :: cs
    { p with
      output := text.reverse ++ indent ++ p.output
      line := p.line + text.count '\n'
      atLineStart := text.getLast? == some '\n' }

/-- Writes a text on a line of its own. -/
def ownLine (p : Printer) (s : String) : Printer := (p.freshLine.write s).newline

/-- Writes a directive on a line of its own, never indented. Line ends inside of it are not
counted. -/
def directive (p : Printer) (s : String) : Printer :=
  let q := p.freshLine
  ({ q with output := s.toList.reverse ++ q.output, atLineStart := false }).newline

def indent (p : Printer) : Printer := { p with depth := p.depth + 1 }

def dedent (p : Printer) : Printer := { p with depth := p.depth - 1 }

/-- All that was written, with one line end at its end. -/
def text (p : Printer) : String :=
  String.ofList ('\n' :: p.output.dropWhile (· = '\n')).reverse

end Printer

end TastyLang

namespace TastyLang

/-- Why a tree cannot be written. Files that went through all steps before give none of these. -/
inductive EmitError.Cause where
  | unresolvedStorage (name : String)
  | newReference (name : String)
  | misplacedRange
  deriving DecidableEq, Inhabited

structure EmitError where
  cause : EmitError.Cause
  pos : Pos
  deriving DecidableEq, Inhabited

namespace EmitError

def detail (e : EmitError) : String :=
  match e.cause with
  | .unresolvedStorage name => s!"storage of {name} was never resolved"
  | .newReference name => s!"cannot bind reference {name} to a new-expression"
  | .misplacedRange => "a range is only valid in a for-in header"

def message (e : EmitError) : String :=
  s!"emission error at line {e.pos.line}, column {e.pos.column}: {e.detail}"

def code (e : EmitError) : String :=
  match e.cause with
  | .unresolvedStorage _ => "E601"
  | .newReference _ => "E602"
  | .misplacedRange => "E603"

end EmitError

namespace Emission

/-- The C++ text of a type; one that has no name is left open. -/
def typeName (t : Ty) : String := if t.anonymous then "auto" else t.cpp

/-- Whether a receiver can be dereferenced without parentheses. -/
def isSimple : Expr → Bool
  | .ident _ _ | .self _ | .paren _ _ => true
  | _ => false

/-- The form of a member access that was not resolved. -/
def defaultAccess : Accessor → Access
  | .dot => .dot
  | .arrow => .arrow 1
  | .scope => .scope

def castText (kind : CastKind) (type x : String) : String :=
  match kind with
  | .plain => "(" ++ type ++ ")(" ++ x ++ ")"
  | .static => "static_cast<" ++ type ++ ">(" ++ x ++ ")"
  | .dynamic => "dynamic_cast<" ++ type ++ ">(" ++ x ++ ")"
  | .reinterpret => "reinterpret_cast<" ++ type ++ ">(" ++ x ++ ")"

/-- A receiver as the first argument of an extension. -/
def receiverText (simple : Bool) (depth : Nat) (x : String) : String :=
  if depth = 0 then x
  else Text.repeated "*" depth ++ (if simple then x else "(" ++ x ++ ")")

variable (info : Info)

mutual

/-- The C++ text of an expression. -/
def expr : Expr → Except EmitError String
  | .literal _ kind value => return if kind == .null then "nullptr" else value
  | .ident _ name => return name
  | .self span => return if info.this.contains span then "this" else "self"
  | .paren _ x => return "(" ++ (← expr x) ++ ")"
  | .binary _ op l r => do
    let a ← expr l
    let b ← expr r
    return a ++ " " ++ op.symbol ++ " " ++ b
  | .unary _ op x trailing => do
    let a ← expr x
    return if trailing then a ++ op.symbol else op.symbol ++ a
  | .call span (.member mspan x name accessor) args =>
    match info.extensionCalls[span]? with
    | some c => do
      let receiver ← expr x
      let xs ← exprs args
      return c.ext.cname ++ "("
        ++ Text.join ", " (receiverText (isSimple x) c.depth receiver :: xs) ++ ")"
    | none => do
      let receiver ← expr x
      let xs ← exprs args
      return (info.access.getD mspan (defaultAccess accessor)).render receiver name
        ++ "(" ++ Text.join ", " xs ++ ")"
  | .call _ fn args => do
    let f ← expr fn
    let xs ← exprs args
    return f ++ "(" ++ Text.join ", " xs ++ ")"
  | .member span x name accessor => do
    let receiver ← expr x
    return (info.access.getD span (defaultAccess accessor)).render receiver name
  | .index _ x i => do
    let a ← expr x
    let b ← expr i
    return a ++ "[" ++ b ++ "]"
  | .new _ type args => do
    let xs ← exprs args
    return "new " ++ typeName (info.typeOfExpr type) ++ "(" ++ Text.join ", " xs ++ ")"
  | .delete _ x => return "delete " ++ (← expr x)
  | .cast _ x kind type => return castText kind (typeName (info.typeOfExpr type)) (← expr x)
  | .tuple _ elems => return "std::make_tuple(" ++ Text.join ", " (← exprs elems) ++ ")"
  | .tupleIndex _ x i => return s!"std::get<{i}>(" ++ (← expr x) ++ ")"
  | .ternary _ c y n => do
    let a ← expr c
    let b ← expr y
    let d ← expr n
    return a ++ " ? " ++ b ++ " : " ++ d
  | .range span _ _ => throw ⟨.misplacedRange, span.start⟩

def exprs : List Expr → Except EmitError (List String)
  | [] => return []
  | e :: es => do
    let x ← expr e
    return x :: (← exprs es)

end

/-! ### Variables -/

/-- The C++ type of a declared variable. -/
def declType (d : VarDecl) : String :=
  let t := info.varType d
  if !t.anonymous then t.cpp
  else
    match d.storage.kind with
    | .reference true => "const auto&"
    | .reference false => "auto&"
    | _ => "auto"

/-- A raw pointer inside `n` shared ones: its type and its value. -/
def sharedBinding (type value : String) : Nat → String × String
  | 0 => (type, value)
  | n + 1 =>
    let (t, v) := sharedBinding type value n
    ("std::shared_ptr<" ++ t ++ ">", "std::make_shared<" ++ t ++ ">(" ++ v ++ ")")

/-- A variable that starts with a new object, in the form that its storage asks for. -/
def newBinding (d : VarDecl) (pos : Pos) (type : TypeExpr) (args : List Expr) (name : String) :
    Except EmitError String := do
  let alloc := typeName (info.typeOfExpr type)
  let xs := Text.join ", " (← exprs info args)
  match d.storage.kind with
  | .value | .moved =>
    return alloc ++ " " ++ name ++ (if args.isEmpty then "" else "(" ++ xs ++ ")")
  | .rawPointer level =>
    let (t, v) := sharedBinding (alloc ++ "*") ("new " ++ alloc ++ "(" ++ xs ++ ")") (level - 1)
    return t ++ " " ++ name ++ " = " ++ v
  | .shared =>
    return "std::shared_ptr<" ++ alloc ++ "> " ++ name ++ " = std::make_shared<" ++ alloc ++ ">("
      ++ xs ++ ")"
  | .unique =>
    return "std::unique_ptr<" ++ alloc ++ "> " ++ name ++ " = std::make_unique<" ++ alloc ++ ">("
      ++ xs ++ ")"
  | .reference _ | .unresolved => throw ⟨.newReference d.name, pos⟩

/-- A declaration of a variable under a name, with modifiers, and with its value if `withValue`. -/
def variableText (d : VarDecl) (name : String) (ms : Modifiers) (withValue : Bool) :
    Except EmitError String := do
  if d.storage.isUnresolved then throw ⟨.unresolvedStorage d.name, d.info.span.start⟩
  let plain := ms.lead ++ declType info d ++ " " ++ name
  match withValue, d.value with
  | true, some (.new span type args) =>
    return ms.lead ++ (← newBinding info d span.start type args name)
  | true, some v =>
    let x ← expr info v
    let x := if d.storage.kind == .moved then "std::move(" ++ x ++ ")" else x
    return plain ++ " = " ++ x
  | _, _ => return plain

end Emission

end TastyLang
