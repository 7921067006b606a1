import TastyLang.Reading.Statements
import TastyLang.Syntax.Decl
import TastyLang.Text.Pieces

/-!
# Reading declarations

`File.read` reads a file. Attributes and modifiers stand in front of a declaration; its span starts
at the modifiers.
-/

namespace TastyLang.Reader

/-- What the readers of declarations need to know: the table, the text itself, and a number of
steps. -/
structure Setting where
  table : Table
  src : List Char
  steps : Nat

/-- The characters of `cs` from byte `low` up to byte `high`. -/
def slice (cs : List Char) (low high : Int) : List Char :=
  let fromByte := fun (n : Int) => go n cs
  (fromByte low).take ((fromByte low).length - (fromByte high).length)
where
  go (n : Int) : List Char → List Char
    | [] => []
    | c :: cs => if n ≤ 0 then c :: cs else go (n - c.utf8Size) cs

/-! ### Attributes -/

/-- Reads an attribute's arguments up to the next token, and goes on by `rest`. -/
def attributeArgsWith (src : List Char) (opener : Token) (rest : Int → Int → Reader (List String))
    (low depth : Int) : Reader (List String) := do
  let t ← current
  let piece := String.ofList (Text.trimChars (slice src low t.pos.offset))
  match t.kind with
  | .eof => unclosed opener
  | .op .openParen | .op .openBracket | .op .openBrace =>
    advance
    rest low (depth + 1)
  | .op .closeParen =>
    if depth ≤ 0 then return [piece]
    advance
    rest low (depth - 1)
  | .op .closeBracket | .op .closeBrace =>
    advance
    rest low (depth - 1)
  | .op .comma =>
    advance
    if depth = 0 then
      return piece :: (← rest (← pos).offset depth)
    rest low depth
  | _ =>
    advance
    rest low depth

/-- Reads the arguments of an attribute up to the closing parenthesis, which is not read. Each is
the text between the commas outside of brackets; `low` is where the current one starts, `depth`
how many brackets are open. -/
def attributeArgs (src : List Char) (opener : Token) : Nat → Int → Int → Reader (List String)
  | 0, _, _ => exhausted
  | n + 1, low, depth => attributeArgsWith src opener (attributeArgs src opener n) low depth

variable (g : Setting)

/-- Reads the arguments of an attribute in parentheses, if there are any. -/
def attributeArgList : Reader (List String) := do
  let t ← current
  if t.kind == .op .openParen then
    advance
    let xs ← attributeArgs g.src t g.steps (← pos).offset 0
    advance
    return if xs = [""] then [] else xs
  return []

/-- Requires that the number of arguments fits the definition of an attribute, if one was read. -/
def requireArity (namePos : Pos) (x : String) (got : Nat) : Reader Unit := do
  match (← get).arities.lookup x with
  | some want => if want ≠ got then failAt namePos (.arity x want got)
  | none => pure ()

/-- Reads `@name(args)`. -/
def attributeUse : Reader AttributeUse := do
  let start ← pos
  discard (expectOp .atSign)
  let namePos ← pos
  let x ← name
  let xs ← attributeArgList g
  requireArity namePos x xs.length
  return ⟨← spanFrom start, x, xs⟩

def attributeUse? : Reader (Option AttributeUse) := do
  if ← checkOp .atSign then some <$> attributeUse g else return none

def attributeUses : Reader (List AttributeUse) := many (attributeUse? g) g.steps

/-- Reads the parameters of an attribute definition, if it has any. -/
def attributeParams : Reader (List String) := do
  let t ← current
  if t.kind == .op .openParen then
    advance
    commaList t .closeParen name g.steps
  else return []

/-- Reads a use of an attribute inside of a definition. -/
def directive : Reader AttributeUse := do
  unless ← checkOp .atSign do unexpected (.token (.op .atSign))
  let u ← attributeUse g
  discard (acceptOp .semicolon)
  return u

/-- Reads a definition of an attribute. From its parameters on, uses are checked against it. -/
def attributeDef (info : Span → DeclInfo) (start : Pos) : Reader Decl := do
  advance
  let x ← name
  let params ← attributeParams g
  modify fun c => { c with arities := (x, params.length) :: c.arities }
  let opener ← expectOp .openBrace
  let directives ← bracedList opener (directive g) g.steps
  return .attributeDef (info (← spanFrom start)) x params directives

/-! ### Directives -/

/-- Reads the first token of a bare path, and the others by `rest`. -/
def barePathWith (rest : Reader (List String)) : Reader (List String) := do
  let t ← current
  match t.kind with
  | .op .semicolon => return []
  | .eof | .op .openBrace | .op .closeBrace => unexpected (.token (.op .semicolon))
  | _ =>
    advance
    return t.literal :: (← rest)

/-- Reads a bare path: everything up to the semicolon. -/
def barePath : Nat → Reader (List String)
  | 0 => exhausted
  | n + 1 => barePathWith (barePath n)

/-- The text between the quotes of a literal. -/
def unquoted (literal : String) : String :=
  let cs := literal.toList
  if 2 ≤ cs.length && (cs.head? == some '"' || cs.head? == some '\x27')
      && cs.head? == cs.getLast? then
    String.ofList ((cs.drop 1).dropLast)
  else literal

/-- Reads the word that says where a header is looked for; a module is always a local one. -/
def locality (kind : IncludeKind) : Reader (Option Bool) := do
  if kind.isModule then return some true
  if ← acceptWord "local" then return some true
  if ← acceptWord "system" then return some false
  return none

/-- Reads a path in quotes or a bare one, and whether it is a local one. -/
def includePath (word : Option Bool) : Reader (String × Bool) := do
  let t ← current
  if t.kind == .string then
    advance
    return (unquoted t.literal, word.getD true)
  let pieces ← barePath g.steps
  if String.join pieces = "" then unexpected .path
  return (String.join pieces, word.getD false)

def includeDecl (info : Span → DeclInfo) (start : Pos) (kind : IncludeKind) : Reader Decl := do
  advance
  let word ← locality kind
  let (path, isLocal) ← includePath g word
  discard (expectOp .semicolon)
  return .includes (info (← spanFrom start)) kind path isLocal

def assumeDecl (info : Span → DeclInfo) (start : Pos) : Reader Decl := do
  advance
  let x ← dottedName g.steps
  expectWord "is"
  let t ← current
  match AssumeKind.ofWord? t.literal with
  | none => unexpected .assumption
  | some kind =>
    advance
    discard (expectOp .semicolon)
    return .assume (info (← spanFrom start)) x kind

/-! ### Functions -/

/-- Reads `[word] name: type [= value]`. -/
def param : Reader Param := do
  let start ← pos
  let s ← storage?
  let x ← name
  discard (expectOp .colon)
  let t ← type g.steps
  let v ← after? (acceptOp .assign) (expression g.table g.steps)
  return ⟨← spanFrom start, x, s, t, v⟩

/-- Reads the symbol after `operator`, also `()` and `[]`. -/
def operatorSymbol : Reader String := do
  let t ← current
  match t.kind, ← nextKind with
  | .op .openParen, .op .closeParen =>
    advance
    advance
    return "()"
  | .op .openBracket, .op .closeBracket =>
    advance
    advance
    return "[]"
  | .op .openParen, _ | .op .openBrace, _ => unexpected .operatorSymbol
  | .op _, _ =>
    advance
    return t.literal
  | _, _ => unexpected .operatorSymbol

/-- Reads the name of a function, or `operator` and its symbol. -/
def funcName : Reader (String × FuncKind) := do
  if ← accept (.keyword .kOperator) then return ("operator", .operator (← operatorSymbol))
  return (← name, .plain)

/-- Reads a body, or the semicolon in the place of one. -/
def bodyHere (tail : Bool) : Reader (Option Block) := do
  if ← checkOp .openBrace then some <$> body g.table g.steps tail
  else do
    discard (expectOp .semicolon)
    return none

/-- Reads a function that starts at `fn`. -/
def func (info : Span → DeclInfo) (start : Pos) : Reader FuncDecl := do
  discard (expect (.keyword .kFn))
  let (x, kind) ← funcName
  let opener ← expectOp .openParen
  let params ← commaList opener .closeParen (param g) g.steps
  let constant ← accept (.modifier .const)
  let result ← after? (acceptOp .arrow) (type g.steps)
  let tail := result.isNone && x ≠ "constructor" && x ≠ "destructor"
  let b ← bodyHere g tail
  return { info := info (← spanFrom start), name := x, kind, params, result
           infer := result.isNone, constant, body := b }

/-- A function as a member of a class: its name makes it a constructor or a destructor. -/
def asMethod (f : FuncDecl) : FuncDecl :=
  match f.name with
  | "constructor" => { f with kind := .constructor, infer := false }
  | "destructor" => { f with kind := .destructor, infer := false }
  | _ => f

/-- Reads a function with its attributes and modifiers. -/
def funcHere : Reader FuncDecl := do
  let attrs ← attributeUses g
  let start ← pos
  let ms ← modifiers g.steps
  unless ← check (.keyword .kFn) do unexpected (.token (.keyword .kFn))
  func g (fun span => { span, attrs, modifiers := ms }) start

/-- Reads functions in braces. -/
def funcBlock : Reader (List FuncDecl) := do
  let opener ← expectOp .openBrace
  bracedList opener (funcHere g) g.steps

/-! ### Enumerations, classes, namespaces -/

def enumMember : Reader EnumMember := do
  let start ← pos
  let x ← name
  let v ← after? (acceptOp .assign) (expression g.table g.steps)
  return ⟨← spanFrom start, x, v⟩

def enumDecl (info : Span → DeclInfo) (start : Pos) : Reader EnumDecl := do
  advance
  let x ← name
  let opener ← expectOp .openBrace
  let members ← commaList opener .closeBrace (enumMember g) g.steps
  return ⟨info (← spanFrom start), x, members⟩

/-- Reads the base classes after `extends`, if there are any. -/
def bases : Reader (List TypeExpr) := do
  if ← acceptWord "extends" then
    let first ← type g.steps
    let more ← many (after? (acceptOp .comma) (type g.steps)) g.steps
    return first :: more
  return []

/-- A declaration as a member of a class that starts at `start`. -/
def asItem (d : Decl) : Reader Item :=
  match d with
  | .item (.func f) => return .func (asMethod f)
  | .item i => return i
  | d => failAt d.info.span.start (.notMember d.kindName)

/-- Reads a declaration, given a reader for the declarations inside. -/
def declWith (inner : Reader Decl) : Reader Decl := do
  let attrs ← attributeUses g
  let start ← pos
  let ms ← modifiers g.steps
  let info : Span → DeclInfo := fun span => { span, attrs, modifiers := ms }
  match (← current).kind with
  | .keyword .kInclude => includeDecl g info start .header
  | .keyword .kContain => includeDecl g info start .contained
  | .keyword .kImport => includeDecl g info start .imported
  | .keyword .kDerive => includeDecl g info start .derived
  | .keyword .kAssume => assumeDecl g info start
  | .keyword .kInject =>
    let text ← injected
    return .item (.inject (info (← spanFrom start)) text)
  | .keyword .kNamespace =>
    advance
    let x ← name
    let opener ← expectOp .openBrace
    let ds ← bracedList opener inner g.steps
    return .scope (info (← spanFrom start)) x ds
  | .keyword .kClass =>
    advance
    let x ← name
    let bs ← bases g
    let opener ← expectOp .openBrace
    let members ← bracedList opener (inner >>= asItem) g.steps
    return .cls (info (← spanFrom start)) x bs members
  | .keyword .kAbstract =>
    advance
    let x ← name
    expectWord "becomes"
    let target ← type g.steps
    let members ← funcBlock g
    return .abstraction (info (← spanFrom start)) x target members
  | .keyword .kRefurbish =>
    advance
    let target ← type g.steps
    let members ← funcBlock g
    return .refurbish (info (← spanFrom start)) target members
  | .keyword .kEnum => (Decl.item ∘ Item.enum) <$> enumDecl g info start
  | .keyword .kAttribute => attributeDef g info start
  | .keyword .kFn => (Decl.item ∘ Item.func) <$> func g info start
  | .storage _ => (Decl.item ∘ Item.var) <$> varDecl g.table g.steps start ms attrs
  | _ => unexpected .declaration

/-- Reads a declaration with its attributes and modifiers. -/
def decl : Nat → Reader Decl
  | 0 => exhausted
  | n + 1 => declWith g (decl n)

/-- Reads the first declaration, and the others by `rest`. -/
def declsWith (rest : Reader (List Decl)) : Reader (List Decl) := do
  if ← check .eof then return []
  let d ← decl g g.steps
  return d :: (← rest)

/-- Reads declarations up to the end of the text. -/
def decls : Nat → Reader (List Decl)
  | 0 => exhausted
  | n + 1 => declsWith g (decls n)

end TastyLang.Reader

namespace TastyLang

/-- The file that a text is. -/
def File.read (table : Table) (name src : String) : Except SyntaxError File :=
  Reader.run src fun n => do
    let start ← Reader.pos
    let ds ← Reader.decls ⟨table, src.toList, n⟩ n
    return ⟨⟨start, ← Reader.pos⟩, name, ds⟩

end TastyLang
