import TastyLang.Emission.Basic

/-!
# Writing C++: bodies

Statements stand on the lines they come from. Pointers that a block owns are deleted on the line of
its closing brace; those that an exit releases are deleted in front of it.
-/

namespace TastyLang.Emission

abbrev Emitter := StateT Printer (Except EmitError)

def write (s : String) : Emitter Unit := modify (·.write s)

def align (line : Int) : Emitter Unit := modify (·.align line)

/-- Writes a line of injected text; a blank one is left out. -/
def injectLine (line : Int) (l : List Char) : Emitter Unit :=
  match Text.trimChars l with
  | [] => pure ()
  | c :: cs => do
    align line
    let s := String.ofList (c :: cs)
    if c = '#' then modify (·.directive s) else write s

/-- Writes injected text from a line on, each of its lines on its own. -/
def injectFrom (line : Int) : List (List Char) → Emitter Unit
  | [] => pure ()
  | l :: ls => do
    injectLine line l
    injectFrom (line + 1) ls

/-- Writes injected text that starts on a line. -/
def inject (line : Int) (text : String) : Emitter Unit :=
  injectFrom line (Text.cutChars '\n' text.toList)

/-- The temporary that holds a returned value while pointers are deleted. -/
def heldResult : String := "tasty_result"

def deleteText (o : Owned) : String :=
  "delete " ++ Text.repeated "*" (o.level - 1) ++ o.name ++ ";"

/-- The deletes in front of an exit, each with a blank after it. -/
def releases (exit : Option Exit) : String :=
  match exit with
  | some e => String.join (e.deletes.map fun o => deleteText o ++ " ")
  | none => ""

def endLine (b : Block) : Int := b.span.stop.line

variable (info : Info)

/-- A condition without outer parentheses, negated if asked. -/
def condition (e : Expr) (negate : Bool) : Except EmitError String := do
  let s ← expr info e.unparen
  return if negate then "!(" ++ s ++ ")" else s

/-- The condition of a loop; a loop without one goes on. -/
def loopCondition (e : Option Expr) (negate : Bool) : Except EmitError String :=
  match e with
  | some e => condition info e negate
  | none => return "true"

def returnText (value : Option Expr) (effect : Bool) (exit : Option Exit) :
    Except EmitError String := do
  match value with
  | none => return releases exit ++ "return;"
  | some v =>
    let x ← expr info v
    if effect then return x ++ ";"
    else if exit.any (·.hold) then
      return "\x7b auto " ++ heldResult ++ " = " ++ x ++ "; " ++ releases exit ++ "return "
        ++ heldResult ++ "; \x7d"
    else return releases exit ++ "return " ++ x ++ ";"

/-- The type of a counting variable. -/
def counterType (span : Span) : String :=
  match info.loopVars[span]? with
  | some _ => typeName (info.loopVarType span).deref
  | none => "int"

/-- What a counting variable becomes after each round. -/
def stepText (kind : CountKind) (name : String) (step : Option Expr) :
    Except EmitError String := do
  match step with
  | some s => return name ++ (if kind.ascending then " += " else " -= ") ++ (← expr info s)
  | none => return name ++ (if kind.ascending then "++" else "--")

/-- How a counting variable compares with its last value. -/
def compareText (kind : CountKind) : String :=
  (if kind.ascending then "<" else ">") ++ (if kind.inclusive then "=" else "")

/-- The head of a counting loop. -/
def countHead (span : Span) (kind : CountKind) (name : String) (low high : Expr)
    (step : Option Expr) : Except EmitError String := do
  let next ← stepText info kind name step
  let l ← expr info low
  let h ← expr info high
  return "for (" ++ counterType info span ++ " " ++ name ++ " = " ++ l ++ "; " ++ name ++ " "
    ++ compareText kind ++ " " ++ h ++ "; " ++ next ++ ") "

/-- The type of the variable of a loop over a container. -/
def eachType (span : Span) : Ty :=
  match info.loopVars[span]? with
  | some _ => info.loopVarType span
  | none => .absent

/-- The variable of a loop over a container. -/
def eachVar (span : Span) (name : String) (storage : Storage) : String :=
  let t := eachType info span
  if !t.anonymous then t.cpp ++ " " ++ name
  else
    match storage.kind with
    | .reference true => "const auto& " ++ name
    | .reference false => "auto& " ++ name
    | _ => "auto " ++ name

/-- The head of a loop over a range or a container. -/
def eachHead (span : Span) (name : String) (storage : Storage) (items : Expr) :
    Except EmitError String := do
  match items with
  | .range _ low high =>
    let l ← expr info low
    let h ← expr info high
    return "for (" ++ counterType info span ++ " " ++ name ++ " = " ++ l ++ "; " ++ name ++ " < "
      ++ h ++ "; " ++ name ++ "++) "
  | e =>
    let x ← expr info e
    return "for (" ++ eachVar info span name storage ++ " : " ++ x ++ ") "

mutual

/-- Writes a statement where the printer stands. -/
def stmt : Stmt → Emitter Unit
  | .block b => block b
  | .expr _ x => do write ((← expr info x) ++ ";")
  | .decl _ d => do write ((← variableText info d d.name d.info.modifiers true) ++ ";")
  | .branch _ negate cond yes no => do
    write ("if (" ++ (← condition info cond negate) ++ ") ")
    block yes
    match no with
    | some s => do
      write " else "
      stmt s
    | none => pure ()
  | .loop _ negate cond body => do
    write ("while (" ++ (← loopCondition info cond negate) ++ ") ")
    block body
  | .count span kind name low high step body => do
    write (← countHead info span kind name low high step)
    block body
  | .each span name storage items body => do
    write (← eachHead info span name storage items)
    block body
  | .ret _ value _ effect exit => do write (← returnText info value effect exit)
  | .brk _ exit => write (releases exit ++ "break;")
  | .cont _ exit => write (releases exit ++ "continue;")
  | .inject span text => inject span.start.line text

def block : Block → Emitter Unit
  | .mk span ss owned => do
    write "\x7b"
    modify (·.indent)
    stmts ss
    align span.stop.line
    owned.forM fun o => do
      write (deleteText o)
      align span.stop.line
    modify (·.dedent)
    write "\x7d"

def stmts : List Stmt → Emitter Unit
  | [] => pure ()
  | s :: ss => do
    align s.pos.line
    stmt s
    stmts ss

end

end TastyLang.Emission
