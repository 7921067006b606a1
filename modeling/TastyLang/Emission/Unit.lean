import TastyLang.Emission.Statements
import TastyLang.Include.Collect
import TastyLang.Text.Letters
import TastyLang.Text.Path

/-!
# Writing C++: header and source

A file becomes a header with what other units need, and a source with the definitions. Both keep
their constructs on the lines they come from as far as the lines in front allow.
-/

namespace TastyLang

namespace Emission

/-- The header and the source while they are written. -/
structure Sheets where
  header : Printer := {}
  source : Printer := {}
  deriving Inhabited

abbrev Writer := StateT Sheets (Except EmitError)

/-- Which of the two a text goes to. -/
inductive Sheet where
  | header | source
  deriving DecidableEq, Inhabited

/-- Where the interface of a declaration goes. -/
def sheetOf (visible : Bool) : Sheet := if visible then .header else .source

/-- Writes to one of the sheets. -/
def on (sheet : Sheet) (e : Emitter Unit) : Writer Unit := do
  let s ← get
  match sheet with
  | .header =>
    let (_, p) ← e.run s.header
    set { s with header := p }
  | .source =>
    let (_, p) ← e.run s.source
    set { s with source := p }

/-- Writes generated text: a directive as such, anything else on a line of its own. -/
def generatedText (s : String) : Emitter Unit :=
  let t := Text.trim s
  if Text.startsWith "#" t then modify (·.directive t) else modify (·.ownLine s)

/-- Writes the texts in front of a declaration so that they end right above it. -/
def prepend (info : DeclInfo) : Emitter Unit := do
  let lines := info.generated.prepend
  unless lines.isEmpty do
    align (info.span.start.line - lines.length)
    lines.forM generatedText

def append (info : DeclInfo) : Emitter Unit := info.generated.append.forM generatedText

def lineOf (info : DeclInfo) : Int := info.span.start.line

def endLineOf (info : DeclInfo) : Int := info.span.stop.line

/-- Whether a function is defined in the header. -/
def isInline (f : FuncDecl) : Bool :=
  f.info.modifiers.has .inline || f.info.modifiers.has .constexpr

/-- Whether a field is defined outside of its class. -/
def isStaticField (d : VarDecl) : Bool :=
  d.info.modifiers.has .static && !d.info.modifiers.has .constexpr

def isMain (f : FuncDecl) : Bool := f.name == "main" && f.kind == .plain

variable (info : Info)

def hasExtensions (fs : List FuncDecl) : Bool := fs.any fun f => (info.extensionFor? f).isSome

/-- Whether an item outside of classes gives anything to the source. -/
def itemNeedsSource (shown : Bool) : Item → Bool
  | .enum _ | .inject _ _ => !shown
  | .func f => f.body.isSome && !(shown && isInline f)
  | .var d =>
    !d.info.modifiers.has .external && !(shown && d.info.modifiers.has .constexpr)

mutual

/-- Whether a declaration gives anything to the source. -/
def needsSource (visible : Bool) (d : Decl) : Bool :=
  match d with
  | .item i => itemNeedsSource (visible && !i.info.generated.noHeader) i
  | .scope i _ ds => needsSourceAny (visible && !i.generated.noHeader) ds
  | .cls i _ _ items =>
    !(visible && !i.generated.noHeader) || items.any fun
      | .func f => f.body.isSome
      | .var d => isStaticField d
      | _ => false
  | .abstraction _ _ _ fs | .refurbish _ _ fs => hasExtensions info fs
  | .includes _ _ _ _ | .assume _ _ _ | .attributeDef _ _ _ _ => false

def needsSourceAny (visible : Bool) : List Decl → Bool
  | [] => false
  | d :: ds => needsSource visible d || needsSourceAny visible ds

end

/-! ### Signatures -/

/-- A parameter, with its value if `defaults`. -/
def param (defaults : Bool) (p : Param) : Except EmitError String := do
  if p.storage.isUnresolved then throw ⟨.unresolvedStorage p.name, p.span.start⟩
  let type := typeName (info.paramType p) ++ (if p.storage.kind == .moved then "&&" else "")
  match defaults, p.value with
  | true, some v => return type ++ " " ++ p.name ++ " = " ++ (← expr info v)
  | _, _ => return type ++ " " ++ p.name

def params (defaults : Bool) (ps : List Param) : Except EmitError String := do
  return Text.join ", " (← ps.mapM (param info defaults))

/-- A function as it is declared in the class `owner`, with a qualifier in front of its name. -/
def signature (owner : String) (f : FuncDecl) (qualifier : String) (defaults : Bool) :
    Except EmitError String := do
  let ps ← params info defaults f.params
  let plain := fun name =>
    typeName (info.result f) ++ " " ++ qualifier ++ name ++ "(" ++ ps ++ ")"
      ++ (if f.constant then " const" else "")
  match f.kind with
  | .constructor => return qualifier ++ owner ++ "(" ++ ps ++ ")"
  | .destructor => return qualifier ++ "~" ++ owner ++ "(" ++ ps ++ ")"
  | .operator symbol => return plain ("operator" ++ symbol)
  | .plain => return plain f.name

def extensionSignature (e : Extension) (f : FuncDecl) (defaults : Bool) :
    Except EmitError String := do
  let ps ← params info defaults f.params
  let self := e.self.cpp ++ " self" ++ (if ps = "" then "" else ", " ++ ps)
  return typeName (info.result f) ++ " " ++ e.cname ++ "(" ++ self ++ ")"

/-! ### Items -/

def enum (d : EnumDecl) : Emitter Unit := do
  prepend d.info
  align (lineOf d.info)
  write ("enum " ++ d.name ++ " \x7b")
  modify (·.indent)
  members d.members
  modify (·.dedent)
  align (endLineOf d.info)
  write "\x7d;"
  append d.info
where
  members : List EnumMember → Emitter Unit
    | [] => pure ()
    | m :: ms => do
      align m.span.start.line
      let value ← match m.value with
        | some v => do
          let x ← liftM (expr info v)
          pure (" = " ++ x)
        | none => pure ""
      write (m.name ++ value ++ (if ms.isEmpty then "" else ","))
      members ms

/-- Writes a declaration in one line with its generated texts around it. -/
def declared (d : DeclInfo) (text : Except EmitError String) : Emitter Unit := do
  prepend d
  align (lineOf d)
  write ((← text) ++ ";")
  append d

/-- Writes a function with its body on a line; `head` is its signature. -/
def definition (line : Int) (head : Except EmitError String) (b : Block) : Emitter Unit := do
  align line
  write ((← head) ++ " ")
  block info b

/-- The head of a function in the source. Of its modifiers only `static` is written there. -/
def sourceHead (f : FuncDecl) (defaults : Bool) : Except EmitError String :=
  ((f.info.modifiers.only ⟨[.static]⟩).lead ++ ·) <$> signature info "" f "" defaults

def func (f : FuncDecl) (visible : Bool) : Writer Unit := do
  let ms := f.info.modifiers
  let prototype := (ms.lead ++ ·) <$> signature info "" f "" true
  match f.body with
  | none => on (sheetOf visible) (declared f.info prototype)
  | some b =>
    if visible && isInline f then
      on .header do
        prepend f.info
        definition info (lineOf f.info) prototype b
        append f.info
    else if visible && !ms.has .static && !isMain f then
      on .header (declared f.info prototype)
      on .source (definition info (lineOf f.info) (sourceHead info f false) b)
    else
      on .source do
        prepend f.info
        definition info (lineOf f.info) (sourceHead info f true) b
        append f.info

/-- Writes a variable of a namespace: an extern declaration in the header and the definition in the
source. A constant expression stands in the header only, a static or untyped variable in the source
only. -/
def global (d : VarDecl) (visible : Bool) : Writer Unit := do
  let ms := d.info.modifiers
  let shown := visible && !ms.has .static && !(info.varType d).anonymous
  if shown then
    if ms.has .constexpr then
      on .header (declared d.info (variableText info d d.name ms true))
    else
      on .header (declared d.info (variableText info d d.name (ms.insert .external) false))
      unless ms.has .external do
        on .source do
          align (lineOf d.info)
          let ms' := if ms.has .const then ms.insert .external else ms
          write ((← variableText info d d.name ms' true) ++ ";")
  else
    on .source (declared d.info (variableText info d d.name ms (!ms.has .external)))

def item (visible : Bool) (i : Item) : Writer Unit :=
  let shown := visible && !i.info.generated.noHeader
  match i with
  | .var d => global info d shown
  | .func f => func info f shown
  | .enum d => on (sheetOf shown) (enum info d)
  | .inject di text => on (sheetOf shown) (inject (lineOf di) text)

/-! ### Classes -/

/-- Writes a member inside of its class. -/
def classMember (owner : String) : Item → Emitter Unit
  | .var d => declared d.info (variableText info d d.name d.info.modifiers (!isStaticField d))
  | .func f => declared f.info do
    return f.info.modifiers.lead ++ (← signature info owner f "" true)
  | .enum d => enum info d
  | .inject di text => inject (lineOf di) text

/-- Writes what a member needs outside of its class. -/
def memberDefinition (owner : String) : Item → Emitter Unit
  | .func f =>
    match f.body with
    | some b => definition info (lineOf f.info) (signature info owner f (owner ++ "::") false) b
    | none => pure ()
  | .var d => do
    if isStaticField d then
      align (lineOf d.info)
      write ((← variableText info d (owner ++ "::" ++ d.name) {} true) ++ ";")
  | .enum _ | .inject _ _ => pure ()

def classHead (name : String) (bases : List TypeExpr) : String :=
  let names := bases.map fun b => "public " ++ typeName (info.typeOfExpr b)
  "class " ++ name ++ (if names.isEmpty then "" else " : " ++ Text.join ", " names) ++ " \x7b"

def cls (d : DeclInfo) (name : String) (bases : List TypeExpr) (items : List Item)
    (visible : Bool) : Writer Unit := do
  on (sheetOf visible) do
    prepend d
    align (lineOf d)
    write (classHead info name bases)
    modify (·.indent)
    d.generated.inherited.forM generatedText
    append d
    modify (·.dedent)
    modify (·.ownLine "public:")
    modify (·.indent)
    items.forM (classMember info name)
    modify (·.dedent)
    align (endLineOf d)
    write "\x7d;"
  items.forM fun i => on .source (memberDefinition info name i)

/-! ### Other declarations -/

/-- Writes the functions that an abstract or refurbish declaration adds to a type. -/
def extension (visible : Bool) (f : FuncDecl) : Writer Unit := do
  match info.extensionFor? f with
  | none => pure ()
  | some e =>
    let line := lineOf f.info
    if visible then
      on .header do
        align line
        write ((← extensionSignature info e f true) ++ ";")
    match f.body with
    | none => pure ()
    | some b => on .source (definition info line (extensionSignature info e f (!visible)) b)

/-- Opens a namespace. -/
def openScope (d : DeclInfo) (name : String) : Emitter Unit := do
  align (lineOf d)
  write ("namespace " ++ Ty.scopedName name ++ " \x7b")
  modify (·.indent)

def closeScope (d : DeclInfo) : Emitter Unit := do
  modify (·.dedent)
  align (endLineOf d)
  write "\x7d"

mutual

def decl (visible : Bool) (d : Decl) : Writer Unit :=
  match d with
  | .item i => item info visible i
  | .scope di name ds => do
    let shown := visible && !di.generated.noHeader
    let sheets := (if shown then [Sheet.header] else [])
      ++ (if needsSource info shown (.scope di name ds) then [.source] else [])
    sheets.forM fun s => on s (openScope di name)
    decls shown ds
    sheets.forM fun s => on s (closeScope di)
  | .cls di name bases items => cls info di name bases items (visible && !di.generated.noHeader)
  | .abstraction di _ _ fs | .refurbish di _ fs =>
    fs.forM (extension info (visible && !di.generated.noHeader))
  | .includes _ _ _ _ | .assume _ _ _ | .attributeDef _ _ _ _ => pure ()

def decls (visible : Bool) : List Decl → Writer Unit
  | [] => pure ()
  | d :: ds => do
    decl visible d
    decls visible ds

end

end Emission

/-- How a unit is written. -/
structure EmitOptions where
  /-- the name of the unit without extension; its last element names the header -/
  name : String := ""
  headerExt : String := ""
  pragmaOnce : Bool := false
  deriving DecidableEq, Inhabited

/-- The include guard of a unit. -/
def guardName (name : String) : String :=
  String.ofList ((Text.upperCase (Text.baseName name)).toList.map fun c =>
    if c == '_' || Text.isLetter c || Text.isDecimalDigit c then c else '_') ++ "_TASTYFILE"

/-- A header and its source. -/
structure CppUnit where
  header : String
  source : String
  includes : IncludeSet
  deriving DecidableEq, Inhabited

namespace Emission

/-- Writes the lines in front of the declarations. -/
def preamble (o : EmitOptions) (includes : IncludeSet) : Writer Unit := do
  let directives := fun (es : List IncludeEntry) =>
    es.forM fun e => modify (·.directive e.directive)
  on .header do
    if o.pragmaOnce then modify (·.directive "#pragma once")
    else
      modify (·.directive ("#ifndef " ++ guardName o.name))
      modify (·.directive ("#define " ++ guardName o.name))
    directives includes.header
  let own : IncludeEntry := ⟨Text.baseName o.name ++ o.headerExt, true⟩
  on .source do directives (own :: includes.source)

def unit (info : Info) (o : EmitOptions) (includes : IncludeSet) (file : File) : Writer Unit := do
  preamble o includes
  decls info true file.decls
  unless o.pragmaOnce do on .header (modify (·.directive "#endif"))

end Emission

/-- The header and source of a file. -/
def File.emit (file : File) (table : Table) (info : Option Info) (o : EmitOptions) :
    Except EmitError CppUnit := do
  let o := { o with
    headerExt := if o.headerExt = "" then defaultHeaderExt else o.headerExt
    name := if o.name = "" then Text.withoutExtension file.name else o.name }
  let includes := file.includes table info o.headerExt
  let (_, sheets) ← (Emission.unit (info.getD {}) o includes file).run {}
  return ⟨sheets.header.text, sheets.source.text, includes⟩

end TastyLang
