import TastyLang.Text.Utf8

/-!
# Looking for patterns in bytes

A `Matcher` is a pattern made ready for the search: texts with wildcards around them, rows of
parts whose lengths are known, and for all else a middle part with something on its left and on
its right. `Matcher.accepts` decides on a whole text and `Matcher.find` looks for the first place
where a matcher can start, with all the lengths that it can take there.

Texts are bytes, and lengths of matchers are counted in characters. An `around` puts its middle no
closer to the ends than its sides have characters, and a part of a row ends one byte behind the
start of its last character; outside of ASCII both is less than what the sides or the part take.
-/

namespace TastyLang.Glob

inductive Matcher where
  | text (bytes : List Nat)
  | nothing
  /-- any part of a name -/
  | star
  /-- any part of a path -/
  | deep
  | oneOf (chars : List Char) (negated : Bool)
  | range (low high : Char) (negated : Bool)
  /-- so many characters, or also more, without a text among them -/
  | stretch (least : Nat) (exact : Bool) (avoided : List Nat)
  | containing (bytes : List Nat)
  | startingWith (bytes : List Nat)
  | endingWith (bytes : List Nat)
  /-- a text, and a part of a name behind it -/
  | openEnded (bytes : List Nat)
  /-- a part of a name, and a text behind it -/
  | openStarted (bytes : List Nat)
  | between (first last : List Nat)
  | anyOf (ms : List Matcher)
  | row (ms : List Matcher)
  | around (middle : Matcher) (left right : Option Matcher)
  deriving Inhabited

namespace Matcher

/-! ### Places in bytes -/

def slash : Nat := 0x2F

/-- The first place of a text in bytes. -/
def place? (part : List Nat) : List Nat → Option Nat
  | [] => if part.isEmpty then some 0 else none
  | b :: bs => if part.isPrefixOf (b :: bs) then some 0 else (place? part bs).map (· + 1)

/-- All places of a text in bytes that do not meet, the last one first and each as far behind as
possible. -/
def places (part : List Nat) : Nat → List Nat → List Nat
  | 0, _ => []
  | n + 1, bs =>
    match place? part.reverse bs.reverse with
    | none => []
    | some k =>
      let start := bs.length - k - part.length
      start :: places part n (bs.take start)

def name (bs : List Nat) : List Nat := bs.takeWhile (· ≠ slash)

def stops (bs : List Nat) : List Nat := (Text.placed bs).map (·.1) ++ [bs.length]

def ends (bs : List Nat) : List Nat := (Text.placed bs).map fun (i, c) => i + c.utf8Size

/-- Where a matcher can start first, and how many bytes it can take from there. -/
abbrev Found := Nat × List Nat

/-- Whether bytes are no more than one character, and this has a property. -/
def acceptsChar (p : Char → Bool) (bs : List Nat) : Bool :=
  match Text.placed bs with
  | [] => p Text.replacement
  | [(_, c)] => p c
  | _ => false

def findChar (p : Char → Bool) (bs : List Nat) : Option Found :=
  ((Text.placed bs).find? (p ·.2)).map fun (i, c) => (i, [c.utf8Size])

def isOneOf (chars : List Char) (negated : Bool) (c : Char) : Bool := chars.contains c != negated

def isBetween (low high : Char) (negated : Bool) (c : Char) : Bool :=
  (low ≤ c && c ≤ high) != negated

/-- The lengths that a `stretch` can take at the start. -/
def stretchLengths (least : Nat) (exact : Bool) (avoided bs : List Nat) : List Nat :=
  let long := (ends bs).drop (least - 1)
  let short := if exact then long.filter (0 :: (ends bs).take least).contains else long
  let clear := stops (bs.take ((place? avoided bs).getD bs.length))
  short.filter clear.contains

/-- The better of two finds: the one that starts first, and both when they start together. -/
def Found.merge : Option Found → Option Found → Option Found
  | none, b => b
  | a, none => a
  | some (i, m), some (j, n) =>
    if j < i then some (j, n) else if i < j then some (i, m) else some (i, m ++ n)

/-- The length that all but the first matchers without one have in common. -/
def commonLength? (lengths : List (Option Nat)) : Option Nat :=
  match lengths.dropWhile (·.isNone) with
  | [] => none
  | n :: rest => if rest.all (· == n) then n else none

/-- Walks through the places of a middle part until one has what belongs to its left and right. -/
def search (find : List Nat → Option Found) (left right : List Nat → Bool) (bs : List Nat)
    (limit : Nat) : Nat → Nat → Bool
  | 0, _ => false
  | n + 1, start =>
    if start < limit then
      match find ((bs.take limit).drop start) with
      | none => false
      | some (i, lengths) =>
        (left (bs.take (start + i)) && lengths.any fun k => right (bs.drop (start + i + k)))
          || search find left right bs limit n (start + i + Text.firstSize (bs.drop (start + i)))
    else false

mutual

/-- The number of characters that a matcher takes, if this is always the same. -/
def length? : Matcher → Option Nat
  | .text bytes => some (Text.placed bytes).length
  | .nothing => some 0
  | .oneOf .. | .range .. => some 1
  | .anyOf ms => commonLength? (lengths ms)
  | .row ms => total? ms
  | .around middle left right => do return (← middle.length?) + (← side? left) + (← side? right)
  | _ => none

def lengths : List Matcher → List (Option Nat)
  | [] => []
  | m :: ms => m.length? :: lengths ms

def total? : List Matcher → Option Nat
  | [] => some 0
  | m :: ms => do return (← m.length?) + (← total? ms)

/-- The length of what stands on one side, which may be nothing. -/
def side? : Option Matcher → Option Nat
  | none => some 0
  | some m => m.length?

end

mutual

/-- Whether a matcher takes all of a text. -/
def accepts : Matcher → List Nat → Bool
  | .text bytes, bs => bytes == bs
  | .nothing, bs => bs.isEmpty
  | .star, bs => !bs.contains slash
  | .deep, _ => true
  | .oneOf chars negated, bs => acceptsChar (isOneOf chars negated) bs
  | .range low high negated, bs => acceptsChar (isBetween low high negated) bs
  | .stretch least exact avoided, bs =>
    let n := (Text.placed bs).length
    least ≤ n && (!exact || n ≤ least) && (place? avoided bs).isNone
  | .containing bytes, bs => (place? bytes bs).isSome
  | .startingWith bytes, bs => bytes.isPrefixOf bs
  | .endingWith bytes, bs => bytes.isSuffixOf bs
  | .openEnded bytes, bs => bytes.isPrefixOf bs && !(bs.drop bytes.length).contains slash
  | .openStarted bytes, bs =>
    bytes.isSuffixOf bs && !(bs.take (bs.length - bytes.length)).contains slash
  | .between first last, bs => first.isPrefixOf bs && last.isSuffixOf bs
  | .anyOf ms, bs => anyAccepts ms bs
  | .row ms, bs => total? ms == some (Text.placed bs).length && rowAccepts ms bs
  | .around middle left right, bs =>
    let before := (side? left).getD 0
    let behind := (side? right).getD 0
    match (around middle left right).length? with
    | some n =>
      n ≤ bs.length && search middle.find (sideAccepts left) (sideAccepts right) bs
        (bs.length - behind) bs.length before
    | none =>
      search middle.find (sideAccepts left) (sideAccepts right) bs (bs.length - behind) bs.length
        before

/-- The first place where a matcher can start, and the lengths that it can take there. -/
def find : Matcher → List Nat → Option Found
  | .text bytes, bs => (place? bytes bs).map (·, [bytes.length])
  | .nothing, _ => some (0, [0])
  | .star, bs => some (0, stops (name bs))
  | .deep, bs => some (0, stops bs)
  | .oneOf chars negated, bs => findChar (isOneOf chars negated) bs
  | .range low high negated, bs => findChar (isBetween low high negated) bs
  | .stretch least exact avoided, bs =>
    match stretchLengths least exact avoided bs with
    | [] => none
    | lengths => some (0, lengths)
  | .containing bytes, bs =>
    (place? bytes bs).map fun i =>
      let k := i + bytes.length
      (0, (stops (bs.drop k)).map (k + ·))
  | .startingWith bytes, bs =>
    (place? bytes bs).map fun i =>
      let k := bytes.length
      (i, k :: (ends (bs.drop (i + k))).map (k + ·))
  | .endingWith bytes, bs => (place? bytes bs).map fun i => (0, [i + bytes.length])
  | .openEnded bytes, bs =>
    (place? bytes bs).map fun i =>
      let k := bytes.length
      (i, k :: (ends (name (bs.drop (i + k)))).map (k + ·))
  | .openStarted bytes, bs =>
    (place? bytes bs).map fun i =>
      let start := i - (name (bs.take i).reverse).length
      (start, [i + bytes.length - start])
  | .between first last, bs => do
    let i ← place? first bs
    match places last bs.length (bs.drop i) with
    | [] => none
    | found => some (i, found.map (· + last.length))
  | .anyOf ms, bs => findAny ms bs
  | .row ms, bs =>
    let n := (total? ms).getD 0
    (((Text.placed bs).map (·.1)).find? fun i => n ≤ bs.length - i && rowAccepts ms (bs.drop i)).map
      (·, [n])
  | .around .., _ => none

def anyAccepts : List Matcher → List Nat → Bool
  | [], _ => false
  | m :: ms, bs => m.accepts bs || anyAccepts ms bs

/-- Whether a row takes the start of a text. -/
def rowAccepts : List Matcher → List Nat → Bool
  | [], _ => true
  | m :: ms, bs =>
    let starts := (Text.placed bs).map (·.1)
    let n := m.length?.getD 0
    if starts.length < n then false
    else
      let last := (if n = 0 then starts.getLast? else starts[n - 1]?).getD 0
      m.accepts (bs.take (last + 1)) && rowAccepts ms (bs.drop (last + 1))

def sideAccepts : Option Matcher → List Nat → Bool
  | none, bs => bs.isEmpty
  | some m, bs => m.accepts bs

def findAny : List Matcher → List Nat → Option Found
  | [], _ => none
  | m :: ms, bs => Found.merge (m.find bs) (findAny ms bs)

end

end Matcher

end TastyLang.Glob
