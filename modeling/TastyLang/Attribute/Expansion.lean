import TastyLang.Resolution.Info
import TastyLang.Text.Pieces
import TastyLang.Text.Quoted

/-!
# Expanding attributes

An attribute is defined by directives: built-in ones, which give texts and flags, and uses of other
attributes. Expanding a use binds its arguments to the parameters of the definition and expands the
directives in order. A class passes the texts of its non-isolated attributes on to the classes that
extend it.
-/

/-! ### Placeholders

A text of an attribute may hold placeholders `[name]`. `substitute` replaces those that are bound;
what stands between a bracket and the next closing one counts as the name, bound or not.
-/

namespace TastyLang.Attribute

/-- Values by name; the first entry of a name counts. -/
abbrev Env := List (String × String)

def substituteChars (env : Env) (cs : List Char) : List Char :=
  match cs with
  | [] => []
  | c :: rest =>
    if c = '[' then
      let name := rest.takeWhile (· ≠ ']')
      match _h : rest.dropWhile (· ≠ ']') with
      | [] => c :: rest
      | close :: after =>
        let piece := match env.lookup (String.ofList name) with
          | some v => v.toList
          | none => c :: name ++ [close]
        piece ++ substituteChars env after
    else c :: substituteChars env rest
termination_by cs.length
decreasing_by
  · have := (List.dropWhile_sublist (p := (· ≠ ']')) (l := rest)).length_le
    rw [_h] at this
    simp only [List.length_cons] at *
    omega
  · simp

/-- The text with every bound placeholder replaced. -/
def substitute (text : String) (env : Env) : String :=
  if env.isEmpty then text else String.ofList (substituteChars env text.toList)

/-- An argument of a directive: the value of the parameter it names, or itself with its placeholders
replaced. -/
def bindArg (arg : String) (env : Env) : String :=
  let a := Text.trim arg
  match env.lookup a with
  | some v => v
  | none => substitute a env

end TastyLang.Attribute

namespace TastyLang

/-- Why a use of an attribute cannot be expanded. -/
inductive AttributeError.Cause where
  | arity (name : String) (want got : Nat)
  | arityAtMost (name : String) (most got : Nat)
  | cycle (name : String)
  | undefined (name : String)
  deriving DecidableEq, Inhabited

/-- A cause, the use that has it, and the attributes that led to the use. -/
structure AttributeError where
  cause : AttributeError.Cause
  pos : Pos
  path : List String
  deriving DecidableEq, Inhabited

namespace AttributeError

def summary (e : AttributeError) : String :=
  match e.cause with
  | .arity name want got => s!"attribute {name} takes {want} argument(s), got {got}"
  | .arityAtMost name most got => s!"attribute {name} takes at most {most} argument(s), got {got}"
  | .cycle name => s!"attribute {name} is composed of itself"
  | .undefined name => s!"undefined attribute {name}"

def detail (e : AttributeError) : String :=
  if 1 < e.path.length then e.summary ++ " (" ++ Text.join " -> " e.path ++ ")" else e.summary

def message (e : AttributeError) : String :=
  s!"attribute error at line {e.pos.line}, column {e.pos.column}: {e.detail}"

def code (e : AttributeError) : String :=
  match e.cause with
  | .arity _ _ _ | .arityAtMost _ _ _ => "E501"
  | .cycle _ => "E502"
  | .undefined _ => "E503"

end AttributeError

namespace Attribute

/-- The built-in directives. -/
inductive Directive where
  | append | prepend | isolated | noHeader | requireInclude
  deriving DecidableEq, Inhabited

namespace Directive

def name : Directive → String
  | append => "DeclareAppend" | prepend => "DeclarePrepend" | isolated => "Isolated"
  | noHeader => "NoHeader" | requireInclude => "RequireInclude"

def all : List Directive := [append, prepend, isolated, noHeader, requireInclude]

def ofName? (n : String) : Option Directive := all.find? (·.name == n)

/-- The least and the largest number of arguments. -/
def arity : Directive → Nat × Nat
  | append | prepend => (1, 1)
  | isolated | noHeader => (0, 0)
  | requireInclude => (1, 2)

end Directive

structure Definition where
  name : String
  params : List String
  directives : List AttributeUse
  deriving Inhabited

/-- What the use of an attribute gives. -/
structure Effects where
  append : List String := []
  prepend : List String := []
  includes : List IncludeRequest := []
  noHeader : Bool := false
  isolated : Bool := false
  deriving Inhabited

namespace Effects

def union (a b : Effects) : Effects :=
  ⟨a.append ++ b.append, a.prepend ++ b.prepend, a.includes ++ b.includes,
    a.noHeader || b.noHeader, a.isolated || b.isolated⟩

/-- The texts that a class passes on. -/
def passedOn (fx : Effects) : List String := if fx.isolated then [] else fx.append

end Effects

/-- What a built-in directive gives for its arguments. -/
def Directive.effects (d : Directive) (args : List String) (env : Env) : Effects :=
  let first := substitute (Text.unquoted (args.headD "")) env
  match d with
  | append => { append := [first] }
  | prepend => { prepend := [first] }
  | isolated => { isolated := true }
  | noHeader => { noHeader := true }
  | requireInclude =>
    let isLocal := match args with
      | [_, second] => ["true", "local"].contains (Text.unquoted second)
      | _ => false
    { includes := [⟨first, isLocal⟩] }

/-- The fault of a number of arguments, if it has one. -/
def arityFault? (name : String) (low high got : Nat) : Option AttributeError.Cause :=
  if low ≤ got && got ≤ high then none
  else if low ≠ high && high < got then some (.arityAtMost name high got)
  else some (.arity name low got)

/-- Parameters and arguments as values by name; of two parameters of one name the last counts. -/
def binding (params args : List String) : Env := (params.zip args).reverse

/-- Expands a use inside the attributes of `stack`, whose parameters are bound by `env`. A stack
holds no attribute twice, so no more than `n` can be open when `n` are defined. -/
def expand (defs : List Definition) : Nat → Env → List String → AttributeUse →
    Except AttributeError Effects
  | n, env, stack, u =>
    let args := u.args.map (bindArg · env)
    let fault := fun cause => Except.error ⟨cause, u.span.start, stack ++ [u.name]⟩
    match Directive.ofName? u.name with
    | some d =>
      match arityFault? u.name d.arity.1 d.arity.2 args.length with
      | some cause => fault cause
      | none => .ok (d.effects args env)
    | none =>
      match defs.reverse.find? (·.name == u.name) with
      | none => fault (.undefined u.name)
      | some d =>
        match arityFault? u.name d.params.length d.params.length args.length with
        | some cause => fault cause
        | none =>
          if stack.contains d.name then fault (.cycle d.name)
          else
            match n with
            | 0 => fault (.cycle d.name)
            | n + 1 => do
              let fxs ← d.directives.mapM
                (expand defs n (binding d.params args) (stack ++ [d.name]))
              return fxs.foldl Effects.union {}

mutual

/-- The attributes that a declaration defines. -/
def definitions : Decl → List Definition
  | .attributeDef _ name params directives => [⟨name, params, directives⟩]
  | .scope _ _ ds => definitionsOf ds
  | _ => []

def definitionsOf : List Decl → List Definition
  | [] => []
  | d :: ds => definitions d ++ definitionsOf ds

end

/-- The effects of the uses in front of a declaration, one by one. -/
def useEffects (defs : List Definition) (us : List AttributeUse) :
    Except AttributeError (List Effects) :=
  us.mapM (expand defs defs.length [] [])

/-- The declaration's notes with what its attributes generate. -/
def generate (info : DeclInfo) (fxs : List Effects) : DeclInfo :=
  let fx := fxs.foldl Effects.union {}
  let g := info.generated
  { info with
    generated := { g with
      append := g.append ++ fx.append
      prepend := g.prepend ++ fx.prepend
      includes := g.includes ++ fx.includes
      noHeader := g.noHeader || fx.noHeader } }

def expandInfo (defs : List Definition) (info : DeclInfo) : Except AttributeError DeclInfo := do
  return generate info (← useEffects defs info.attrs)

def expandItem (defs : List Definition) (i : Item) : Except AttributeError Item := do
  return i.withInfo (← expandInfo defs i.info)

mutual

/-- A declaration with what its attributes, and those of what it holds, generate. The uses in front
of a definition mean nothing. -/
def expandDecl (defs : List Definition) : Decl → Except AttributeError Decl
  | .item i => return .item (← expandItem defs i)
  | .scope info name ds => do
    let info' ← expandInfo defs info
    return .scope info' name (← expandDecls defs ds)
  | .cls info name bases items => do
    let info' ← expandInfo defs info
    return .cls info' name bases (← items.mapM (expandItem defs))
  | .attributeDef info name params directives =>
    return .attributeDef info name params directives
  | d => return d.withInfo (← expandInfo defs d.info)

def expandDecls (defs : List Definition) : List Decl → Except AttributeError (List Decl)
  | [] => return []
  | d :: ds => do
    let d' ← expandDecl defs d
    return d' :: (← expandDecls defs ds)

end

/-! ### Inheritance -/

/-- A class as inheritance sees it: the classes of the file that it extends, and the texts of its
own attributes that it passes on. -/
structure Heir where
  span : Span
  bases : List Span
  own : List String
  deriving Inhabited

mutual

def heirs (info : Info) (defs : List Definition) : Decl → List Heir
  | .cls i _ bases _ =>
    let fxs := (useEffects defs i.attrs).toOption.getD []
    [⟨i.span, bases.filterMap fun b => (info.localBase? b).map (·.1),
      fxs.flatMap Effects.passedOn⟩]
  | .scope _ _ ds => heirsOf info defs ds
  | _ => []

def heirsOf (info : Info) (defs : List Definition) : List Decl → List Heir
  | [] => []
  | d :: ds => heirs info defs d ++ heirsOf info defs ds

end

/-- What classes inherit, as far as it is known, and the classes on the way. -/
structure Estate where
  known : List (Span × List String) := []
  visiting : List Span := []

/-- What a class passes on, with what it inherits noted. Through a class that is on the way already
nothing is inherited. -/
def pass (hs : List Heir) : Nat → Span → StateM Estate (List String)
  | 0, _ => return []
  | n + 1, span => do
    let some h := hs.find? (·.span = span) | return []
    let s ← get
    if (s.known.lookup span).isNone && !s.visiting.contains span then
      modify fun s => { s with visiting := span :: s.visiting }
      let got ← h.bases.mapM (pass hs n)
      modify fun s => { s with known := (span, got.flatten) :: s.known }
    return ((← get).known.lookup span).getD [] ++ h.own

/-- What each class inherits. -/
def inheritance (hs : List Heir) : List (Span × List String) :=
  hs.foldl (fun known h =>
    (pass hs (hs.length + 1) h.span ⟨known, []⟩).2.known) []

mutual

/-- A declaration whose classes have what they inherit. -/
def inheritDecl (known : List (Span × List String)) : Decl → Decl
  | .cls i name bases items =>
    let inherited := (known.lookup i.span).getD []
    .cls { i with generated := { i.generated with inherited } } name bases items
  | .scope i name ds => .scope i name (inheritDecls known ds)
  | d => d

def inheritDecls (known : List (Span × List String)) : List Decl → List Decl
  | [] => []
  | d :: ds => inheritDecl known d :: inheritDecls known ds

end

end Attribute

/-- The file with what its attributes generate. Without the results of resolution classes inherit
nothing. -/
def File.expand (file : File) (info : Option Info) : Except AttributeError File := do
  let defs := Attribute.definitionsOf file.decls
  let ds ← Attribute.expandDecls defs file.decls
  match info with
  | none => return { file with decls := ds }
  | some i =>
    let known := Attribute.inheritance (Attribute.heirsOf i defs file.decls)
    return { file with decls := Attribute.inheritDecls known ds }

end TastyLang
