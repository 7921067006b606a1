import TastyLang.Glob.Assembly
import TastyLang.Text.Quoted

/-!
# Reading patterns

The text of a pattern is cut into tokens, and the tokens are put together along their braces. A
brace that is never closed ends with the text. Commas and closing braces mean something between
braces only, and a backslash takes its meaning from the character behind it. The character NUL ends
a run of plain text, and the whole pattern where a token could start; the replacement character
stands for what could not be read.
-/

namespace TastyLang

inductive GlobError where
  /-- the text ends inside of a class -/
  | unfinished
  /-- more than one range in a class -/
  | crowded
  | reversed (low high : Char)
  | emptyClass
  | unreadable
  deriving DecidableEq, Inhabited

def GlobError.message : GlobError → String
  | unfinished => "unexpected end of input"
  | crowded => "expected close range character"
  | reversed low high => s!"hi character '{high}' should be greater than lo '{low}'"
  | emptyClass => "could not parse range"
  | unreadable => "could not read rune"

namespace Glob

inductive Token where
  | part (p : Part)
  | opening
  | comma
  | closing
  deriving Inhabited

def nul : Char := Char.ofNat 0

/-- Whether a character ends all that is read. -/
def isEnd (c : Char) : Bool := c = nul || c = Text.replacement

/-- The plain text up to a character that stops it, and what is left of the pattern. -/
def plain (isStop : Char → Bool) : List Char → List Char × List Char
  | [] => ([], [])
  | ['\\'] => ([], [])
  | '\\' :: c :: cs =>
    if c = nul then ([], cs)
    else if c = Text.replacement then ([], c :: cs)
    else
      let (chars, rest) := plain isStop cs
      (c :: chars, rest)
  | c :: cs =>
    if c = nul then ([], cs)
    else if isStop c || c = Text.replacement then ([], c :: cs)
    else
      let (chars, rest) := plain isStop cs
      (c :: chars, rest)

/-- The text behind the closing bracket of a class. -/
def closed : List Char → Except GlobError (List Char)
  | [] => .error .unfinished
  | ']' :: rest => .ok rest
  | c :: _ => .error (if isEnd c then .unfinished else .crowded)

/-- The class behind an opening bracket, without the mark of negation. -/
def classPart (negated : Bool) : List Char → Except GlobError (Part × List Char)
  | [] => .error .unfinished
  | [_, '-'] => .error .unfinished
  | low :: '-' :: high :: rest => do
    if isEnd low || isEnd high then throw .unfinished
    let rest ← closed rest
    if high < low then throw (.reversed low high)
    return (.range low high negated, rest)
  | c :: cs => do
    if isEnd c then throw .unfinished
    let (chars, rest) := plain (· = ']') (c :: cs)
    let rest ← closed rest
    if chars.isEmpty then throw .emptyClass
    return (.oneOf chars negated, rest)

/-- The class behind an opening bracket. -/
def classOf : List Char → Except GlobError (Part × List Char)
  | '!' :: cs => classPart true cs
  | cs => classPart false cs

def isStop (depth : Nat) (c : Char) : Bool :=
  ['?', '*', '[', '\x7b'].contains c || (0 < depth && ['\x7d', ','].contains c)

/-- The tokens of a text inside of so many braces. Each token takes a character at least, so that
the length of the text bounds their number. -/
def tokens : Nat → Nat → List Char → Except GlobError (List Token)
  | 0, _, _ => .ok []
  | _ + 1, _, [] => .ok []
  | n + 1, depth, '*' :: '*' :: cs => (tokens n depth cs).map (.part .deep :: ·)
  | n + 1, depth, '*' :: cs => (tokens n depth cs).map (.part .star :: ·)
  | n + 1, depth, '?' :: cs => (tokens n depth cs).map (.part .single :: ·)
  | n + 1, depth, '\x7b' :: cs => (tokens n (depth + 1) cs).map (.opening :: ·)
  | n + 1, depth, '[' :: cs => do
    let (p, rest) ← classOf cs
    return .part p :: (← tokens n depth rest)
  | n + 1, depth, c :: cs =>
    if c = nul then .ok []
    else if c = Text.replacement then .error .unreadable
    else if 0 < depth && c = '\x7d' then (tokens n (depth - 1) cs).map (.closing :: ·)
    else if 0 < depth && c = ',' then (tokens n depth cs).map (.comma :: ·)
    else
      match plain (isStop depth) (c :: cs) with
      | ([], rest) => tokens n depth rest
      | (chars, rest) => (tokens n depth rest).map (.part (.text (String.ofList chars)) :: ·)

/-- An open brace: the parts in front of it, and the alternatives that are complete. -/
structure Frame where
  outer : List Part
  done : List (List Part) := []

/-- The parts with a brace closed behind its last alternative. -/
def Frame.close (f : Frame) (last : List Part) : List Part :=
  f.outer ++ [.choice (f.done ++ [last])]

/-- Puts tokens behind the parts read so far, inside of the open braces. -/
def build : List Frame → List Part → List Token → List Part
  | fs, ps, [] => fs.foldl (fun ps f => f.close ps) ps
  | fs, ps, .part p :: ts => build fs (ps ++ [p]) ts
  | fs, ps, .opening :: ts => build (⟨ps, []⟩ :: fs) [] ts
  | f :: fs, ps, .comma :: ts => build ({ f with done := f.done ++ [ps] } :: fs) [] ts
  | f :: fs, ps, .closing :: ts => build fs (f.close ps) ts
  | [], ps, .comma :: ts | [], ps, .closing :: ts => build [] ps ts

/-- Reads a pattern. -/
def read (text : String) : Except GlobError Glob := do
  let cs := text.toList
  return ofParts (build [] [] (← tokens cs.length 0 cs))

end Glob

end TastyLang

/-! ### Selecting files

A file is selected when one of the patterns to include matches its path and none of those to
exclude does.
-/

namespace TastyLang

structure Selection where
  included : List Glob
  excluded : List Glob
  deriving Inhabited

/-- A pattern that cannot be read, and what it was given for. -/
structure PatternError where
  role : String
  pattern : String
  cause : GlobError
  deriving DecidableEq, Inhabited

def PatternError.message (e : PatternError) : String :=
  s!"invalid {e.role} {Text.quote e.pattern}: {e.cause.message}"

namespace Selection

/-- The patterns of a list. -/
def globs (role : String) (patterns : List String) : Except PatternError (List Glob) :=
  patterns.mapM fun p => (Glob.read p).mapError (⟨role, p, ·⟩)

def ofPatterns (included excluded : List String) : Except PatternError Selection := do
  return ⟨← globs "include pattern" included, ← globs "exclude pattern" excluded⟩

def selects (s : Selection) (path : String) : Bool :=
  !s.excluded.any (·.selects path) && s.included.any (·.selects path)

end Selection

end TastyLang
