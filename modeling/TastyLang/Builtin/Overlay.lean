import TastyLang.Builtin.Basic
import TastyLang.Document.Decoding
import TastyLang.Document.Literal
import TastyLang.Document.Flow
import TastyLang.Text.Quoted

/-!
# Overlays

A project may change the built-in table by overlay files, each laid over what came before. An
overlay is a settings text, or a script that assigns literals to the names of the table's sections.
`Table.overlaid` lays overlays over the default table.
-/

namespace TastyLang

/-- An overlay file. -/
structure Overlay where
  name : String
  text : String
  deriving DecidableEq, Inhabited

/-- What is wrong with an entry of the table. -/
inductive TableFlaw where
  | missingSpelling
  | precedence
  /-- a section that is no dictionary -/
  | notDict (got : String)
  | namespaceNotText (got : String)
  /-- a value of a script, under the steps that lead to it -/
  | unsupported (steps : List String) (what : String)
  | script (detail : String)
  | unreadable (cause : String)
  deriving DecidableEq, Inhabited

/-- A flaw, the key it stands under, and the overlay that brought it, if it is known. -/
structure TableError where
  source : String := ""
  key : String
  flaw : TableFlaw
  deriving DecidableEq, Inhabited

/-- Why a table cannot be made. -/
inductive OverlayError where
  | entry (e : TableError)
  /-- an overlay that cannot be read as a settings text -/
  | unreadable (name cause : String)
  /-- a value that does not fit its place in the table -/
  | misfit (detail : String)
  deriving DecidableEq, Inhabited

def TableFlaw.detail : TableFlaw → String
  | missingSpelling => "missing cpp spelling"
  | precedence => "precedence must be positive"
  | notDict got => s!"expected a dict, got {got}"
  | namespaceNotText got => s!"namespace must be a string, got {got}"
  | unsupported steps what => String.join (steps.map (· ++ ": ")) ++ what
  | script detail => s!"starlark execution error: {detail}"
  | unreadable cause => s!"failed to read file: {cause}"

def TableError.message (e : TableError) : String :=
  if e.source = "" then s!"builtin table: {e.key}: {e.flaw.detail}"
  else s!"builtin table {e.source}: {e.key}: {e.flaw.detail}"

def OverlayError.message : OverlayError → String
  | entry e => e.message
  | unreadable name cause => s!"failed to read builtin overlay {name}: {cause}"
  | misfit detail => "unable to decode builtin table: " ++ detail

/-! ### Scripts -/

namespace Script

def words : Literal.Words := [("True", .bool true), ("False", .bool false), ("None", .none)]

/-- The name of a literal's type. -/
def typeName : Literal → String
  | .none => "NoneType"
  | .bool _ => "bool"
  | .int _ => "int"
  | .float _ => "float"
  | .text _ => "string"
  | .bytes _ => "bytes"
  | .list _ => "list"
  | .tuple _ => "tuple"
  | .dict _ => "dict"

/-- A name and what it stands for. -/
structure Assignment where
  name : String
  /-- the number of characters in front of it -/
  start : Nat
  value : Literal
  deriving Inhabited

/-- Whether a line has nothing more to say. -/
def isLineEnd (cs : List Char) : Bool :=
  match cs.dropWhile fun c => c = ' ' || c = '\t' with
  | [] => true
  | c :: _ => ['\n', '\r', '#', ';'].contains c

/-- The literals behind commas on the same line, if there is such a comma. -/
def more : Nat → List Char → Except Literal.Flaw (Option (List Literal × List Char))
  | 0, _ => .error .form
  | n + 1, cs =>
    match cs.dropWhile fun c => c = ' ' || c = '\t' with
    | ',' :: rest =>
      if isLineEnd rest then .ok (some ([], rest))
      else do
        let (v, rest) ← Literal.value words n rest
        match ← more n rest with
        | some (vs, rest) => return some (v :: vs, rest)
        | none => return some ([v], rest)
    | _ => .ok none

/-- The value of an assignment: a literal, or some with commas between them. -/
def assigned (n : Nat) (cs : List Char) : Except Literal.Flaw (Literal × List Char) := do
  let (v, rest) ← Literal.value words n cs
  match ← more n rest with
  | some (vs, rest) => return (.tuple (v :: vs), rest)
  | none => return (v, rest)

/-- Reads assignments `name = literal` up to the end of a script of so many characters. -/
def assignments (size : Nat) : Nat → List Char → Except Literal.Flaw (List Assignment)
  | 0, _ => .error .form
  | n + 1, cs =>
    match Literal.skip n cs with
    | [] => .ok []
    | ';' :: rest => assignments size n rest
    | cs =>
      let name := cs.takeWhile Literal.isWordChar
      match name, Literal.skip n (cs.dropWhile Literal.isWordChar) with
      | _ :: _, '=' :: rest => do
        let (v, rest) ← assigned n rest
        return ⟨String.ofList name, size - cs.length, v⟩ :: (← assignments size n rest)
      | _, _ => .error .form

/-- Line ends of any kind as `\n`. -/
def plainLines : List Char → List Char
  | [] => []
  | '\r' :: '\n' :: cs => '\n' :: plainLines cs
  | '\r' :: cs => '\n' :: plainLines cs
  | c :: cs => c :: plainLines cs

/-! #### Faults of a run -/

/-- The line and the column behind so many characters. -/
def place (text : List Char) (start : Nat) : String :=
  let front := text.take start
  let line := front.count '\n' + 1
  let column := (front.reverse.takeWhile (· ≠ '\n')).length + 1
  s!"{line}:{column}"

/-- A place in a script, under its name. -/
def placed (o : Overlay) (start : Nat) : String :=
  s!"{o.name}:{place (plainLines o.text.toList) start}"

/-- The first name that is given a value again. -/
def reassigned? (o : Overlay) : List Assignment → List Assignment → Option String
  | _, [] => none
  | seen, a :: rest =>
    match seen.find? (·.name == a.name) with
    | some first =>
      some (s!"{placed o a.start}: cannot reassign global {a.name} declared at "
        ++ placed o first.start)
    | none => reassigned? o (seen ++ [a]) rest

/-- How a key is shown. -/
def shownKey : Literal → String
  | .none => "None"
  | .bool b => if b then "True" else "False"
  | .int n => toString n
  | .text s => Text.quote s
  | .bytes s => "b" ++ Text.quote s
  | k => typeName k

/-- Whether two scalars are the same key. -/
def sameKey : Literal → Literal → Bool
  | .none, .none => true
  | .bool a, .bool b => a == b
  | .int a, .int b => a == b
  | .text a, .text b | .bytes a, .bytes b => a == b
  | _, _ => false

mutual

/-- What is wrong with the keys of dictionaries, in the order in which they are made. -/
def keyFault? : Literal → Option String
  | .list xs | .tuple xs => itemFault? xs
  | .dict es => entryFault? [] es
  | _ => none

def itemFault? : List Literal → Option String
  | [] => none
  | x :: xs => (keyFault? x).or (itemFault? xs)

def entryFault? (seen : List Literal) : List (Literal × Literal) → Option String
  | [] => none
  | (k, v) :: es =>
    (keyFault? k).or ((keyFault? v).or
      (match k with
        | .list _ | .dict _ => some s!"unhashable type: {typeName k}"
        | k =>
          if seen.any (sameKey k) then some s!"duplicate key: {shownKey k}"
          else entryFault? (seen ++ [k]) es))

end

/-! #### Sections -/

mutual

/-- A literal as a document, or the steps to a value that no table holds. -/
def toDocument : Literal → Except (List String × String) Document
  | .none => .ok .null
  | .bool b => .ok (.bool b)
  | .int n =>
    if Text.fitsWord n then .ok (.word true n) else .error ([], s!"integer out of range: {n}")
  | .float _ => .error ([], "unsupported value of type float")
  | .bytes _ => .error ([], "unsupported value of type bytes")
  | .text s => .ok (.text s)
  | .list xs => (toDocuments "list" 0 xs).map .list
  | .tuple xs => (toDocuments "tuple" 0 xs).map .list
  | .dict es => (toEntries es).map .ofEntries

def toDocuments (what : String) (i : Nat) : List Literal →
    Except (List String × String) (List Document)
  | [] => .ok []
  | x :: xs =>
    match toDocument x with
    | .error (steps, e) => .error (s!"{what} index {i}" :: steps, e)
    | .ok d => (toDocuments what (i + 1) xs).map (d :: ·)

def toEntries : List (Literal × Literal) → Except (List String × String) (List (String × Document))
  | [] => .ok []
  | (.text k, v) :: es =>
    match toDocument v with
    | .error (steps, e) => .error (s!"dict key {Text.quote k}" :: steps, e)
    | .ok d => (toEntries es).map ((k, d) :: ·)
  | (k, _) :: _ => .error ([], s!"dict key must be string, got {typeName k}")

end

def sections : List String := ["primitives", "namespaces", "includes", "features", "operators"]

/-- A list of namespaces as a map that switches them on. -/
def namespaceSet (items : List Document) : Except TableFlaw Document := do
  let names ← items.mapM fun
    | .text s => .ok (s, Document.bool true)
    | d => .error (TableFlaw.namespaceNotText d.typeName)
  return .ofEntries names

/-- A section of a table as a script gives it. -/
def sectionOf (key : String) (v : Literal) : Except TableFlaw Document := do
  let d ← (toDocument v).mapError fun (steps, e) => TableFlaw.unsupported steps e
  match key, d with
  | "namespaces", .list items => namespaceSet items
  | _, .map es => return .map es
  | _, _ => throw (.notDict (typeName v))

/-- What goes wrong when a script is run: a name that is given a value twice, or a dictionary that
cannot be made. -/
def runFault? (o : Overlay) (found : List Assignment) : Option String :=
  (reassigned? o [] found).or (itemFault? (found.map (·.value)))

/-- What the reader finds wrong with a script of so many characters. -/
def flawDetail (o : Overlay) (size : Nat) : Literal.Flaw → String
  | .form => "the text is no list of assignments"
  | .refused left why => s!"{placed o (size - left)}: {why.message}"

/-- The document of a script. -/
def document (o : Overlay) : Except TableError Document := do
  let cs := plainLines o.text.toList
  let refuse := fun (detail : String) => (⟨o.name, "-", .script detail⟩ : TableError)
  let found ← (assignments cs.length (2 * cs.length + 2) cs).mapError
    (refuse ∘ flawDetail o cs.length)
  match runFault? o found with
  | some detail => throw (refuse detail)
  | none =>
    let entries ← sections.filterMapM fun key =>
      match found.find? (·.name == key) with
      | none => pure none
      | some a => (some ∘ (key, ·)) <$> (sectionOf key a.value).mapError (⟨o.name, key, ·⟩)
    return .ofEntries entries

end Script

/-! ### Tables and documents -/

namespace Table

/-- The settings of a primitive; what is empty or false is left out. -/
def primitiveEntries (p : Primitive) : List (String × Document) :=
  [("cpp", .text p.cpp)] ++ (if p.header = "" then [] else [("header", .text p.header)])
    ++ (if p.integer then [("integer", .bool true)] else []) ++ [("rank", .int p.rank)]

/-- The settings of an operator; what is false is left out. -/
def bindingEntries (b : Binding) : List (String × Document) :=
  [("precedence", .int b.precedence)] ++ (if b.right then [("right", .bool true)] else [])

/-- A table as a document. -/
def toDocument (t : Table) : Document :=
  let texts := fun (es : List (String × String)) => Document.map (es.map fun (k, v) => (k, .text v))
  .map [
    ("features", texts t.features),
    ("includes", texts t.includes),
    ("namespaces", .map (t.namespaces.map fun (k, v) => (k, .bool v))),
    ("operators", .map (t.operators.map fun b => (b.symbol, .map (bindingEntries b)))),
    ("primitives", .map (t.primitives.map fun p => (p.name, .map (primitiveEntries p))))]

/-- The entries of a section, each decoded under its name in messages; `want` is what the section
has to be. -/
def sectionOf {α : Type} (d : Document) (key want : String)
    (f : String → String → Document → Decoder α) : Decoder (List α) := do
  let entries ← Decoder.entries want f key ((d.field? key).getD .null)
  return (Keyed.ofList entries).map (·.2)

/-- The fields of an entry, each with its name in messages. -/
def fieldsOf (path : String) (d : Document) : Decoder (String → String × Document) := do
  match d with
  | .map _ | .null => pure ()
  | _ => let _ : Unit ← Decoder.take (.error (s!"'{path}' expected a map or struct, got "
      ++ Text.quote d.kindName))
  return fun field => (s!"{path}.{field}", (d.field? field).getD .null)

def decodeText (path name : String) (d : Document) : Decoder (String × String) :=
  return (name, ← Decoder.take (d.toText path))

def decodeSwitch (path name : String) (d : Document) : Decoder (String × Bool) :=
  return (name, ← Decoder.take (d.toBool path))

def decodePrimitive (path name : String) (d : Document) : Decoder Primitive := do
  let field ← fieldsOf path d
  let (cpp, rank, integer, header) := (field "cpp", field "rank", field "integer", field "header")
  return ⟨name, ← Decoder.take (cpp.2.toText cpp.1), ← Decoder.take (rank.2.toInt rank.1),
    ← Decoder.take (integer.2.toBool integer.1), ← Decoder.take (header.2.toText header.1)⟩

def decodeBinding (path symbol : String) (d : Document) : Decoder Binding := do
  let field ← fieldsOf path d
  let (precedence, right) := (field "precedence", field "right")
  return ⟨symbol, ← Decoder.take (precedence.2.toInt precedence.1),
    ← Decoder.take (right.2.toBool right.1)⟩

/-- The table that a document describes, before its entries are checked. -/
def ofDocument (d : Document) : Except String Table := Decoder.finish do
  return {
    primitives := ← sectionOf d "primitives" "map[string]builtin.primitiveSpec" decodePrimitive
    namespaces := ← sectionOf d "namespaces" "map[string]bool" decodeSwitch
    includes := ← sectionOf d "includes" "map[string]string" decodeText
    features := ← sectionOf d "features" "map[string]string" decodeText
    operators := ← sectionOf d "operators" "map[string]builtin.operatorSpec" decodeBinding }

/-- The first flaw in the entries of a table: a primitive without a spelling, or an operator that
does not bind. -/
def flaw? (t : Table) : Option TableError :=
  match t.primitives.find? (·.cpp == "") with
  | some p => some ⟨"", s!"primitives/{p.name}", .missingSpelling⟩
  | none =>
    (t.operators.find? fun b => b.precedence ≤ 0).map fun b =>
      ⟨"", s!"operators/{b.symbol}", .precedence⟩

/-- Whether an overlay is a script: its name ends in `.star`, in letters of any case. -/
def isScript (name : String) : Bool :=
  Text.endsWith ".star" (String.ofList (name.toList.map Char.toLower))

def overlayDocument (o : Overlay) : Except OverlayError Document :=
  if isScript o.name then (Script.document o).mapError .entry
  else
    (Document.ofText o.text).mapError fun e => .unreadable o.name e.message

/-- The error about an overlay file that cannot be read. -/
def unreadableOverlay (name cause : String) : OverlayError :=
  if isScript name then .entry ⟨name, "-", .unreadable cause⟩ else .unreadable name cause

/-- The table of a document, if all of its entries can be used. -/
def checked (d : Document) : Except OverlayError Table := do
  let t ← (ofDocument d).mapError .misfit
  match t.flaw? with
  | some e => throw (.entry e)
  | none => return t

/-- The default table with overlays laid over it, the last one on top. -/
def overlaid (os : List Overlay) : Except OverlayError Table := do
  checked (← os.foldlM (fun d o => return d.merge (← overlayDocument o)) default.toDocument)

end Table

end TastyLang
