import Std.Data.TreeMap

/-!
# Places in a source text

A `Pos` is a place, a `Span` a stretch between two places. `Pos.afterAll` walks over characters:
columns and offsets grow by the bytes a character takes, and a newline starts a line. A `SpanMap`
holds what is known about the stretches of a text.
-/

namespace TastyLang

/-- A place in a source text. Lines and columns count from 1, offsets from 0; a place with no line
was never set. -/
structure Pos where
  line : Int := 0
  column : Int := 0
  offset : Int := 0
  deriving DecidableEq, Hashable, Inhabited

/-- A stretch of source text; `stop` is the place right after its last character. -/
structure Span where
  start : Pos := {}
  stop : Pos := {}
  deriving DecidableEq, Hashable, Inhabited

namespace Pos

def first : Pos := ⟨1, 1, 0⟩

/-- The place after the character `c` that stands at `p`. -/
def after (p : Pos) (c : Char) : Pos :=
  if c = '\n' then ⟨p.line + 1, 1, p.offset + 1⟩
  else ⟨p.line, p.column + c.utf8Size, p.offset + c.utf8Size⟩

/-- The place after the characters `cs` that start at `p`. -/
def afterAll (p : Pos) (cs : List Char) : Pos := cs.foldl after p

/-- The place `n` bytes further on the same line. -/
def shift (p : Pos) (n : Nat) : Pos := ⟨p.line, p.column + n, p.offset + n⟩

def isSet (p : Pos) : Bool := 0 < p.line

/-- `line:column`, or a dash for a place that was never set. -/
def text (p : Pos) : String :=
  if p.isSet then s!"{p.line}:{p.column}" else "-"

@[simp]
theorem afterAll_nil (p : Pos) : p.afterAll [] = p := rfl

@[simp]
theorem afterAll_cons (p : Pos) (c : Char) (cs : List Char) :
    p.afterAll (c :: cs) = (p.after c).afterAll cs := rfl

theorem afterAll_append (p : Pos) (cs ds : List Char) :
    p.afterAll (cs ++ ds) = (p.afterAll cs).afterAll ds := List.foldl_append

end Pos

namespace Span

def contains (s : Span) (offset : Int) : Bool :=
  s.start.offset ≤ offset && offset < s.stop.offset

/-- How many lines the span touches; none when one of its ends was never set. -/
def lines (s : Span) : Int :=
  if s.start.isSet && s.stop.isSet then s.stop.line - s.start.line + 1 else 0

end Span

/-! ### Order -/

/-- Places in the order of their offsets. -/
instance : Ord Pos where
  compare := compareLex (compareOn Pos.offset)
    (compareLex (compareOn Pos.line) (compareOn Pos.column))

instance : Std.TransOrd Pos :=
  inferInstanceAs (Std.TransCmp (compareLex (compareOn Pos.offset)
    (compareLex (compareOn Pos.line) (compareOn Pos.column))))

instance : Std.LawfulEqOrd Pos where
  eq_of_compare {p q} h := by
    obtain ⟨offset, rest⟩ := compareLex_eq_eq.mp h
    obtain ⟨line, column⟩ := compareLex_eq_eq.mp rest
    have offset := Std.LawfulEqOrd.eq_of_compare offset
    have line := Std.LawfulEqOrd.eq_of_compare line
    have column := Std.LawfulEqOrd.eq_of_compare column
    cases p
    cases q
    simp_all

/-- Spans in the order of their starts. -/
instance : Ord Span where
  compare := compareLex (compareOn Span.start) (compareOn Span.stop)

instance : Std.TransOrd Span :=
  inferInstanceAs (Std.TransCmp (compareLex (compareOn Span.start) (compareOn Span.stop)))

instance : Std.LawfulEqOrd Span where
  eq_of_compare {s t} h := by
    obtain ⟨start, stop⟩ := compareLex_eq_eq.mp h
    have start := Std.LawfulEqOrd.eq_of_compare start
    have stop := Std.LawfulEqOrd.eq_of_compare stop
    cases s
    cases t
    simp_all

/-- What is known about the stretches of a text. -/
abbrev SpanMap (α : Type) := Std.TreeMap Span α

end TastyLang
