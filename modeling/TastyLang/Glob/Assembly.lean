import TastyLang.Glob.Matcher

/-!
# Patterns for paths

A pattern is a row of `Part`s. `*` and `?` stay inside of a directory, `**` does not. Alternatives
between braces that start or end with the same parts have these parts factored out by
`Part.factored`, so that they are looked for once.
-/

namespace TastyLang.Glob

inductive Part where
  | text (s : String)
  /-- one character of a name -/
  | single
  /-- any part of a name -/
  | star
  /-- any part of a path -/
  | deep
  | oneOf (chars : List Char) (negated : Bool)
  | range (low high : Char) (negated : Bool)
  | choice (alternatives : List (List Part))
  | group (parts : List Part)
  deriving Inhabited

namespace Part

mutual

/-- Whether two parts are written the same way. -/
def same : Part → Part → Bool
  | .text s, .text t => s = t
  | .single, .single | .star, .star | .deep, .deep => true
  | .oneOf cs n, .oneOf ds m => cs = ds && n = m
  | .range a b n, .range c d m => a = c && b = d && n = m
  | .choice ps, .choice qs => sameChoice ps qs
  | .group ps, .group qs => sameRow ps qs
  | _, _ => false

def sameRow : List Part → List Part → Bool
  | [], [] => true
  | p :: ps, q :: qs => p.same q && sameRow ps qs
  | _, _ => false

def sameChoice : List (List Part) → List (List Part) → Bool
  | [], [] => true
  | p :: ps, q :: qs => sameRow p q && sameChoice ps qs
  | _, _ => false

end

mutual

/-- How many parts stand in a part, itself counted. -/
def size : Part → Nat
  | .choice alternatives => choiceSize alternatives + 1
  | .group parts => rowSize parts + 1
  | _ => 1

def rowSize : List Part → Nat
  | [] => 0
  | p :: ps => p.size + rowSize ps

def choiceSize : List (List Part) → Nat
  | [] => 0
  | ps :: alternatives => rowSize ps + 1 + choiceSize alternatives

end

/-! ### Shared ends -/

/-- How many parts at their ends alternatives have in common, and the ends that may have more. -/
structure Shared where
  left : Nat := 0
  right : Nat := 0
  leftOpen : Bool := true
  rightOpen : Bool := true

namespace Shared

def sameAt (ps qs : List Part) (i : Nat) : Bool :=
  match ps[i]?, qs[i]? with
  | some p, some q => p.same q
  | _, _ => false

/-- Compares the parts at distance `i` from both ends. A part that is shared from the left is no
longer looked at from the right. -/
def step (shortest : List Part) (others : List (List Part)) (s : Shared) (i : Nat) : Shared :=
  if s.left + s.right < shortest.length && (s.leftOpen || s.rightOpen) then
    let ends := others.foldl
      (fun (l, r) other =>
        let l := l && sameAt shortest other i
        let met := l && shortest.length ≤ 2 * i + 1
        (l, r && !met && sameAt shortest.reverse other.reverse i))
      (s.leftOpen, s.rightOpen)
    { left := s.left + ends.1.toNat
      right := s.right + ends.2.toNat
      leftOpen := ends.1
      rightOpen := ends.2 }
  else s

end Shared

/-- The place of the first of the shortest lists. -/
def shortestAt (alternatives : List (List Part)) : Nat :=
  let least := alternatives.foldl (fun n ps => min n ps.length)
    ((alternatives.head?.map (·.length)).getD 0)
  alternatives.findIdx (·.length == least)

/-- The parts at the start and at the end that all alternatives share; none when there is only
one. -/
def sharedEnds (alternatives : List (List Part)) : Nat × Nat :=
  if alternatives.length ≤ 1 then (0, 0)
  else
    let k := shortestAt alternatives
    let shortest := (alternatives[k]?).getD []
    let s := (List.range shortest.length).foldl (Shared.step shortest (alternatives.eraseIdx k)) {}
    (s.left, s.right)

/-- Alternatives without those that stand in front of them already. -/
def distinct (alternatives : List (List Part)) : List (List Part) :=
  alternatives.foldl
    (fun found ps => if found.any (sameRow ps ·) then found else found ++ [ps]) []

/-- The row that a list stands for, or nothing at all when the list is empty. -/
def groupOf? : List Part → Option Part
  | [] => none
  | ps => some (.group ps)

/-- A choice with the shared ends of its alternatives in front of it and behind it, if they have
such ends. -/
def split? (alternatives : List (List Part)) : Option (List Part) :=
  match alternatives, sharedEnds alternatives with
  | _, (0, 0) => none
  | [], _ => none
  | ps :: _, (left, right) =>
    let middles := distinct
      (alternatives.map fun qs => (qs.drop left).take (qs.length - left - right))
    let middle :=
      match middles with
      | [qs] => groupOf? qs
      | _ => some (.choice middles)
    some ((groupOf? (ps.take left)).toList ++ middle.toList
      ++ (groupOf? (ps.drop (ps.length - right))).toList)

/-- A part with the shared ends of alternatives factored out, down to a depth. -/
def factoredTo : Nat → Part → Part
  | 0, p => p
  | n + 1, .choice alternatives =>
    match split? alternatives with
    | some parts => .group (parts.map (factoredTo n))
    | none => .choice (alternatives.map fun ps => ps.map (factoredTo n))
  | n + 1, .group parts => .group (parts.map (factoredTo n))
  | _ + 1, p => p

/-- A part with the shared ends of alternatives factored out: each step leaves smaller parts, so
that its size is a bound for the depth. -/
def factored (p : Part) : Part := factoredTo p.size p

end Part

/-!
## From patterns to matchers

The parts of a pattern become matchers one by one. Neighbours are glued together where one matcher
can do the work of several, the longest run first; what is left is split at the part with the
greatest known length. `Matcher.simplified` picks the plain search for texts between wildcards.
-/


namespace Matcher

/-- The plainest matcher for what a matcher accepts. -/
def simplified : Matcher → Matcher
  | .anyOf [m] => m
  | .oneOf [c] false => .text (Text.utf8Bytes c)
  | .around middle left right =>
    let left := side left
    let right := side right
    match middle, left, right with
    | .text bytes, none, none => .text bytes
    | .text bytes, some .deep, some .deep => .containing bytes
    | .text bytes, some .deep, none => .endingWith bytes
    | .text bytes, none, some .deep => .startingWith bytes
    | .text bytes, none, some (.endingWith last) => .between bytes last
    | .text bytes, some (.startingWith first), none => .between first bytes
    | .text bytes, some .star, none => .openStarted bytes
    | .text bytes, none, some .star => .openEnded bytes
    | middle, left, right => .around middle left right
  | m => m
where
  side : Option Matcher → Option Matcher
    | none => none
    | some m => some m.simplified

/-! ### Gluing neighbours -/

/-- Matchers that can become one `stretch`: how many of them are single characters, the text that
they avoid, and whether there are stars among them. -/
structure Stretch where
  singles : Nat := 0
  avoided : List Char
  stars : Bool := false

/-- The part that a matcher has in a stretch. -/
def stretch? : Matcher → Option Stretch
  | .deep => some { avoided := [], stars := true }
  | .star => some { avoided := ['/'], stars := true }
  | .oneOf chars true => some { avoided := chars, singles := 1 }
  | _ => none

def Stretch.append? (s t : Stretch) : Option Stretch :=
  if s.avoided = t.avoided then
    some { s with singles := s.singles + t.singles, stars := s.stars || t.stars }
  else none

def Stretch.ofMatchers? : List Matcher → Option Stretch
  | [] => none
  | [m] => m.stretch?
  | m :: ms => do (← m.stretch?).append? (← ofMatchers? ms)

def Stretch.toMatcher (s : Stretch) : Matcher :=
  match s.singles, s.avoided with
  | 0, [] => .deep
  | 0, _ => .star
  | n, avoided => .stretch n (!s.stars) (avoided.flatMap Text.utf8Bytes)

/-- Two or more matchers as one, if they are a stretch or have known lengths. -/
def glued? (ms : List Matcher) : Option Matcher :=
  if ms.length ≤ 1 then none
  else
    match Stretch.ofMatchers? ms with
    | some s => some s.toMatcher
    | none => (total? ms).map fun _ => .row ms

/-- A run of neighbours that can be glued. -/
structure Run where
  start : Nat
  size : Nat
  whole : Matcher

/-- Whether a run is to be glued rather than the one found before: it is longer, or the matcher
that it gives is. -/
def Run.beats (new old : Run) : Bool :=
  (match old.whole.length?, new.whole.length? with
    | some n, some m => n < m
    | _, _ => false) || old.size < new.size

/-- The run that is glued first. -/
def bestRun? (ms : List Matcher) : Option Run :=
  let starts := List.range ms.length
  let runs := starts.flatMap fun start =>
    (List.range (ms.length - start)).reverse.filterMap fun n =>
      (glued? ((ms.drop start).take (n + 1))).map (⟨start, n + 1, ·⟩)
  runs.foldl
    (fun best run =>
      match best with
      | none => some run
      | some old => if run.beats old then some run else best) none

/-- Glues neighbours as long as there are some. A run has two matchers at least, so that the number
of matchers bounds the number of steps. -/
def glueAll : Nat → List Matcher → List Matcher
  | 0, ms => ms
  | n + 1, ms =>
    match bestRun? ms with
    | none => ms
    | some run =>
      glueAll n (ms.take run.start ++ run.whole :: ms.drop (run.start + run.size))

/-- The place of the last of the matchers with the greatest known length. -/
def longestAt? (ms : List Matcher) : Option Nat :=
  (go 0 none ms).map (·.1)
where
  go (i : Nat) (best : Option (Nat × Nat)) : List Matcher → Option (Nat × Nat)
    | [] => best
    | m :: ms =>
      let best :=
        match m.length?, best with
        | none, best => best
        | some n, none => some (i, n)
        | some n, some (k, l) => if l ≤ n then some (i, n) else some (k, l)
      go (i + 1) best ms

/-- One matcher for a row of them, split at the longest. -/
def joined : Nat → List Matcher → Matcher
  | 0, _ => .nothing
  | _ + 1, [] => .nothing
  | _ + 1, [m] => m
  | n + 1, m :: ms =>
    match glued? (m :: ms), longestAt? (m :: ms) with
    | some whole, _ => whole
    | none, none => .around m none (side n ms)
    | none, some i =>
      .around (((m :: ms)[i]?).getD m) (side n ((m :: ms).take i)) (side n ((m :: ms).drop (i + 1)))
where
  /-- What stands on one side, which may be nothing. -/
  side (n : Nat) : List Matcher → Option Matcher
    | [] => none
    | ms => some (joined n ms)

/-- The matcher of a row of matchers. -/
def ofRow (ms : List Matcher) : Matcher :=
  let ms := glueAll ms.length ms
  (joined (ms.length + 1) ms).simplified

end Matcher

mutual

/-- The matcher of a part whose alternatives share no ends. -/
def Part.matcher : Part → Matcher
  | .text s => .text (Text.bytesOf s)
  | .single => .oneOf ['/'] true
  | .star => .star
  | .deep => .deep
  | .oneOf chars negated => (Matcher.oneOf chars negated).simplified
  | .range low high negated => .range low high negated
  | .choice alternatives => .anyOf (choiceMatchers alternatives)
  | .group [] => .nothing
  | .group parts => .ofRow (rowMatchers parts)

def rowMatchers : List Part → List Matcher
  | [] => []
  | p :: ps => p.matcher.simplified :: rowMatchers ps

def choiceMatchers : List (List Part) → List Matcher
  | [] => []
  | [] :: rest => .nothing :: choiceMatchers rest
  | ps :: rest => (Matcher.ofRow (rowMatchers ps)).simplified :: choiceMatchers rest

end

end TastyLang.Glob

namespace TastyLang

/-- A pattern for paths. -/
structure Glob where
  matcher : Glob.Matcher
  deriving Inhabited

namespace Glob

/-- The pattern of a row of parts. -/
def ofParts (parts : List Part) : Glob := ⟨(Part.group parts).factored.matcher⟩

/-- Whether a pattern selects a path. -/
def selects (g : Glob) (path : String) : Bool := g.matcher.accepts (Text.bytesOf path)

end Glob

end TastyLang
