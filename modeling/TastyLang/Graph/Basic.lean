import TastyLang.Keyed.Basic
import TastyLang.Text.Pieces
import TastyLang.Text.Quoted

/-!
# The module graph

The units of a project and the imports between them. A `Graph` notes each import twice, for the unit
that imports and for the one that is imported; what it answers is sorted by name. An import of a
module that no unit of the project provides is external and gives no edge.
-/

namespace TastyLang

/-- One file of a project. -/
structure GraphUnit where
  id : String
  file : String
  deriving DecidableEq, Inhabited

/-- An import of one unit by another. -/
structure Edge where
  importer : String
  imported : String
  deriving DecidableEq, Inhabited

/-- Names noted under names, each list in the order in which it grew. -/
abbrev Register := Keyed (List String)

namespace Register

/-- What is noted under a name. -/
def under (r : Register) (k : String) : List String := (r.lookup k).getD []

/-- Notes `x` under `k`, once. -/
def note (r : Register) (k x : String) : Register :=
  if (r.under k).contains x then r else Keyed.insert k (r.under k ++ [x]) r

end Register

structure Graph where
  units : List GraphUnit := []
  /-- by unit, the units that import it -/
  dependents : Register := []
  /-- by unit, the units that it imports -/
  parents : Register := []
  /-- by unit, its imports that no unit of the project provides -/
  foreign : Register := []
  deriving DecidableEq, Inhabited

inductive GraphError where
  | missing (id : String)
  /-- a walk along imports that ends where it starts -/
  | cycle (path : List String)
  deriving DecidableEq, Inhabited

def GraphError.message : GraphError → String
  | missing id => s!"unit {Text.quote id} does not exist"
  | cycle path => "import cycle: " ++ Text.join " -> " path

namespace Graph

def sorted (xs : List String) : List String := xs.mergeSort fun a b => decide (a ≤ b)

def unit? (g : Graph) (id : String) : Option GraphUnit := g.units.find? (·.id == id)

def contains (g : Graph) (id : String) : Bool := (g.unit? id).isSome

/-- Adds a unit; one that is there already gets the new file. -/
def addUnit (g : Graph) (id file : String) : Graph :=
  if g.contains id then
    { g with units := g.units.map fun u => if u.id == id then ⟨id, file⟩ else u }
  else
    { g with
      units := g.units ++ [⟨id, file⟩]
      dependents := Keyed.insert id [] g.dependents
      parents := Keyed.insert id [] g.parents }

/-- Notes an import in the graph at hand, once. A unit that imports itself is an error. -/
def noteImport (importer imported : String) : EStateM GraphError Graph Unit := do
  let g ← get
  if !g.contains importer then throw (.missing importer)
  else if !g.contains imported then
    set { g with foreign := g.foreign.note importer imported }
  else if importer = imported then throw (.cycle [importer, importer])
  else
    modify fun g => { g with dependents := g.dependents.note imported importer }
    modify fun g => { g with parents := g.parents.note importer imported }

/-- The graph with an import added. -/
def addImport (g : Graph) (importer imported : String) : Except GraphError Graph :=
  match noteImport importer imported g with
  | .ok _ g' => .ok g'
  | .error e _ => .error e

def imports (g : Graph) (id : String) : List String := sorted (g.parents.under id)

def importers (g : Graph) (id : String) : List String := sorted (g.dependents.under id)

/-- The modules that a unit imports from outside of the project. -/
def external (g : Graph) (id : String) : List String := sorted (g.foreign.under id)

/-- The imports between units. -/
def edges (g : Graph) : List Edge :=
  g.dependents.flatMap fun (imported, importers) => importers.map (⟨·, imported⟩)

def ids (g : Graph) : List String := sorted (g.units.map (·.id))

end Graph

end TastyLang

/-! ### Cycles, orders and levels

Walks over a module graph. A walk never enters a unit twice, so the number of units bounds how deep
it goes.
-/

namespace TastyLang

namespace Graph

/-- Follows the imports of `id`, where `path` led to it and `visited` were entered before. The walk
ends with the first cycle it closes, or with the units that it has entered. -/
def seekCycle (g : Graph) : Nat → List String → List String → String →
    Except (List String) (List String)
  | 0, _, visited, _ => .ok visited
  | n + 1, path, visited, id =>
    let path := path ++ [id]
    (g.imports id).foldlM (fun visited next =>
      if path.contains next then .error (path.dropWhile (· ≠ next) ++ [next])
      else if visited.contains next then .ok visited
      else seekCycle g n path visited next) (id :: visited)

/-- The first cycle of imports, with its first unit repeated at the end. -/
def cycle? (g : Graph) : Option (List String) :=
  let walk := g.ids.foldlM (fun visited id =>
    if visited.contains id then .ok visited else g.seekCycle g.units.length [] visited id) []
  match walk with
  | .ok _ => none
  | .error path => some path

/-- Puts what `id` imports, and then `id` itself, behind `done`. -/
def place (g : Graph) : Nat → List String → String → List String
  | 0, done, _ => done
  | n + 1, done, id =>
    if done.contains id then done else (g.imports id).foldl (place g n) done ++ [id]

/-- The units with imports in front of their importers, for a graph without cycles. -/
def linear (g : Graph) : List String := g.ids.foldl (g.place g.units.length) []

/-- The units with imports in front of their importers. -/
def order (g : Graph) : Except GraphError (List String) :=
  match g.cycle? with
  | some path => .error (.cycle path)
  | none => .ok g.linear

/-- Finds the depth of `id` and of all units below it that have none yet: one more than that of the
deepest import, and 0 without imports. -/
def depthIn (g : Graph) : Nat → List (String × Nat) → String → List (String × Nat)
  | 0, known, _ => known
  | n + 1, known, id =>
    if (known.lookup id).isSome then known
    else
      let (known, depth) := (g.imports id).foldl (fun (known, depth) m =>
        let known := depthIn g n known m
        (known, max depth ((known.lookup m).getD 0 + 1))) (known, 0)
      known ++ [(id, depth)]

/-- Adds empty levels until there is one for a depth. -/
def deepen (levels : List (List String)) (depth : Nat) : List (List String) :=
  levels ++ List.replicate (depth + 1 - levels.length) []

/-- The units by depth: those of level 0 import nothing, and every other one only from lower
levels. -/
def levels (g : Graph) : Except GraphError (List (List String)) :=
  match g.cycle? with
  | some path => .error (.cycle path)
  | none =>
    let (known, empty) := g.ids.foldl (fun (known, levels) id =>
      let known := g.depthIn g.units.length known id
      (known, deepen levels ((known.lookup id).getD 0))) ([], [])
    let filled := known.foldl (fun levels (id, depth) => levels.modify depth (· ++ [id])) empty
    .ok (filled.map sorted)

/-- Marks `id` and all that import it, directly or not. -/
def mark (g : Graph) : Nat → List String → String → List String
  | 0, seen, _ => seen
  | n + 1, seen, id =>
    if seen.contains id then seen else (g.importers id).foldl (mark g n) (id :: seen)

/-- The known units of a list with all that import them. -/
def affected (g : Graph) (changed : List String) : List String :=
  sorted ((changed.filter g.contains).foldl (g.mark g.units.length) [])

end Graph

end TastyLang
