import TastyLang.Proofs.Resolution.Sound
import TastyLang.Proofs.Scope.Growth
import TastyLang.Proofs.Ty.Bare

/-!
# Charts

The landmarks of a file are the names that it declares, each with the path of the scope around it and
with what it stands for in a type. They are read off the declarations, and as a set they do not
depend on the order of these. After the first pass the symbol table knows just the landmarks
(`SymbolTable.Charted`), so looking a name up in a scope is looking it up on the chart of the file.
-/

namespace TastyLang

/-- What a declared name stands for in a written type. -/
inductive Meant where
  | type (t : Ty)
  | binding (target : TypeExpr)
  /-- no type -/
  | other

structure Landmark where
  path : Path
  name : String
  meant : Meant

/-! ### What a file declares -/

def AssumeKind.meant (name : String) : AssumeKind → Meant
  | .cls => .type (.cls name 0)
  | .scope | .func | .var => .other

def FuncDecl.landmarks (π : Path) (f : FuncDecl) : List Landmark :=
  if f.kind == .constructor || f.kind == .destructor then [] else [⟨π, f.name, .other⟩]

def Item.landmarks (π : Path) : Item → List Landmark
  | .var d => [⟨π, d.name, .other⟩]
  | .func f => f.landmarks π
  | .enum d =>
    ⟨π, d.name, .type (.enum (π.dotted d.name))⟩ ::
      d.members.map fun m => ⟨d.name :: π, m.name, .other⟩
  | .inject _ _ => []

mutual

def Decl.landmarks (π : Path) : Decl → List Landmark
  | .item i => i.landmarks π
  | .assume _ name kind =>
    if name.toList.contains '.' then [] else [⟨π, name, kind.meant name⟩]
  | .scope _ name ds => ⟨π, name, .other⟩ :: Decl.landmarksOf (name :: π) ds
  | .cls _ name _ items =>
    ⟨π, name, .type (.cls (π.dotted name) 0)⟩ :: items.flatMap (Item.landmarks (name :: π))
  | .abstraction _ name target fs =>
    ⟨π, name, .binding target⟩ :: fs.flatMap (FuncDecl.landmarks (name :: π))
  | .attributeDef _ name _ _ => [⟨π, name, .other⟩]
  | .includes _ _ _ _ | .refurbish _ _ _ => []

def Decl.landmarksOf (π : Path) : List Decl → List Landmark
  | [] => []
  | d :: ds => d.landmarks π ++ Decl.landmarksOf π ds

end

mutual

/-- The dotted names that a declaration assumes. -/
def Decl.assumptions : Decl → List (String × AssumeKind)
  | .assume _ name kind => if name.toList.contains '.' then [(name, kind)] else []
  | .scope _ _ ds => Decl.assumptionsOf ds
  | .item _ | .includes _ _ _ _ | .cls _ _ _ _ | .abstraction _ _ _ _ | .refurbish _ _ _
  | .attributeDef _ _ _ _ => []

def Decl.assumptionsOf : List Decl → List (String × AssumeKind)
  | [] => []
  | d :: ds => d.assumptions ++ Decl.assumptionsOf ds

end

mutual

/-- The classes of a declaration, by their places in the text. -/
def Decl.classesAt (π : Path) : Decl → List (Span × Path × String)
  | .cls info name _ _ => [(info.span, π, name)]
  | .scope _ name ds => Decl.classesAtOf (name :: π) ds
  | .item _ | .includes _ _ _ _ | .assume _ _ _ | .abstraction _ _ _ _ | .refurbish _ _ _
  | .attributeDef _ _ _ _ => []

def Decl.classesAtOf (π : Path) : List Decl → List (Span × Path × String)
  | [] => []
  | d :: ds => d.classesAt π ++ Decl.classesAtOf π ds

end

theorem Decl.landmarksOf_eq (π : Path) (ds : List Decl) :
    Decl.landmarksOf π ds = ds.flatMap (Decl.landmarks π) := by
  induction ds with
  | nil => rfl
  | cons d ds ih => rw [Decl.landmarksOf, ih, List.flatMap_cons]

theorem Decl.classesAtOf_eq (π : Path) (ds : List Decl) :
    Decl.classesAtOf π ds = ds.flatMap (Decl.classesAt π) := by
  induction ds with
  | nil => rfl
  | cons d ds ih => rw [Decl.classesAtOf, ih, List.flatMap_cons]

/-! ### Looking names up on a chart -/

/-- What a list of declarations declares and assumes, and where its classes are. -/
structure Chart where
  landmarks : List Landmark
  assumed : List (String × AssumeKind)
  classes : List (Span × Path × String)

namespace Chart

instance : Append Chart :=
  ⟨fun c d => ⟨c.landmarks ++ d.landmarks, c.assumed ++ d.assumed, c.classes ++ d.classes⟩⟩

variable (c : Chart)

/-- The landmark of a name at a path. -/
def at? (π : Path) (name : String) : Option Landmark :=
  c.landmarks.find? fun l => l.path = π && l.name = name

/-- The landmark that names lead to from another one. -/
def through? (l : Landmark) : List String → Option Landmark
  | [] => some l
  | part :: parts => (c.at? (l.name :: l.path) part).bind (through? · parts)

/-- The landmark of a dotted name for one who stands at a path. A name that is assumed, the last time
that counts, comes before all that is declared. -/
def lookup? (π : Path) (name : String) : Option Landmark :=
  match c.assumed.reverse.lookup name with
  | some kind => some ⟨[], name, kind.meant name⟩
  | none =>
    match Text.cut '.' name with
    | [] => none
    | first :: parts => (π.tails.findSome? (c.at? · first)).bind (c.through? · parts)

end Chart

/-- No two classes stand at one place of the text. -/
def Chart.Apart (c : Chart) : Prop := ∀ x ∈ c.classes, ∀ y ∈ c.classes, x.1 = y.1 → x = y

/-- No name is declared with two meanings. -/
def Landmark.Agree (ls : List Landmark) : Prop :=
  ∀ l ∈ ls, ∀ l' ∈ ls, l.path = l'.path → l.name = l'.name → l.meant = l'.meant

theorem Landmark.Agree.snoc {ls : List Landmark} (agree : Landmark.Agree ls) {new : Landmark}
    (same : ∀ l ∈ ls, l.path = new.path → l.name = new.name → l.meant = new.meant) :
    Landmark.Agree (ls ++ [new]) := by
  intro l listed l' listed' path own
  simp only [List.mem_append, List.mem_singleton] at listed listed'
  rcases listed with listed | rfl <;> rcases listed' with listed' | rfl
  · exact agree l listed l' listed' path own
  · exact same l listed path own
  · exact (same l' listed' path.symm own.symm).symm
  · rfl

/-! ### Charts of the same declarations -/

namespace Chart

variable {c c' : Chart}

theorem at?_congr (agree : Landmark.Agree c.landmarks)
    (mem : ∀ l, l ∈ c.landmarks ↔ l ∈ c'.landmarks) : c.at? = c'.at? := by
  funext π name
  unfold at?
  cases found : c.landmarks.find? fun l => l.path = π && l.name = name with
  | none =>
    refine (List.find?_eq_none.mpr fun l listed => ?_).symm
    exact List.find?_eq_none.mp found l ((mem l).mpr listed)
  | some l =>
    have listed := (mem l).mp (List.mem_of_find?_eq_some found)
    have key := List.find?_some found
    have isSome : (c'.landmarks.find? fun l => l.path = π && l.name = name).isSome := by
      rw [List.find?_isSome]
      exact ⟨l, listed, key⟩
    obtain ⟨l', found'⟩ := Option.isSome_iff_exists.mp isSome
    have key' := List.find?_some found'
    simp only [Bool.and_eq_true, decide_eq_true_eq] at key key'
    have path := key.1.trans key'.1.symm
    have own := key.2.trans key'.2.symm
    have meant := agree l (List.mem_of_find?_eq_some found) l'
      ((mem l').mpr (List.mem_of_find?_eq_some found')) path own
    obtain ⟨_, _, _⟩ := l
    obtain ⟨_, _, _⟩ := l'
    dsimp only at path own meant
    rw [found', path, own, meant]

theorem lookup?_congr (agree : Landmark.Agree c.landmarks)
    (mem : ∀ l, l ∈ c.landmarks ↔ l ∈ c'.landmarks)
    (assumed : ∀ name, c.assumed.reverse.lookup name = c'.assumed.reverse.lookup name) :
    c.lookup? = c'.lookup? := by
  have same := at?_congr agree mem
  have through : ∀ parts l, c.through? l parts = c'.through? l parts := by
    intro parts
    induction parts with
    | nil => exact fun _ => rfl
    | cons part parts ih =>
      intro l
      rw [through?, through?, same]
      exact Option.bind_congr fun l' _ => ih l'
  funext π name
  unfold lookup?
  rw [assumed, same]
  cases c'.assumed.reverse.lookup name with
  | some kind => rfl
  | none =>
    dsimp only
    cases Text.cut '.' name with
    | nil => rfl
    | cons first parts => exact Option.bind_congr fun l _ => through parts l

end Chart

/-! ### Symbols and landmarks -/

/-- Both are there, and related, or neither is. -/
inductive Paired {α β : Type} (r : α → β → Prop) : Option α → Option β → Prop where
  | some {a : α} {b : β} : r a b → Paired r (some a) (some b)
  | none : Paired r none none

theorem Paired.findSome? {α β γ δ : Type} {r : α → β → Prop} {r' : γ → δ → Prop}
    {f : α → Option γ} {g : β → Option δ} {xs : List α} {ys : List β}
    (related : List.Forall₂ r xs ys) (each : ∀ {x y}, r x y → Paired r' (f x) (g y)) :
    Paired r' (xs.findSome? f) (ys.findSome? g) := by
  induction related with
  | nil => exact .none
  | cons first _ ih =>
    have here := each first
    simp only [List.findSome?_cons]
    revert here
    generalize f _ = a, g _ = b
    rintro (⟨related⟩ | _)
    · exact .some related
    · exact ih

theorem Paired.imp {α β : Type} {r r' : α → β → Prop} (h : ∀ a b, r a b → r' a b) {x : Option α}
    {y : Option β} : Paired r x y → Paired r' x y
  | .some related => .some (h _ _ related)
  | .none => .none

theorem Paired.bind {α β γ δ : Type} {r : α → β → Prop} {r' : γ → δ → Prop} {x : Option α}
    {y : Option β} {f : α → Option γ} {g : β → Option δ} (paired : Paired r x y)
    (each : ∀ a b, r a b → Paired r' (f a) (g b)) : Paired r' (x.bind f) (y.bind g) := by
  cases paired with
  | some related => exact each _ _ related
  | none => exact .none

theorem Paired.lookup {κ α β : Type} [BEq κ] {r : κ → α → β → Prop} {xs : List (κ × α)}
    {ys : List (κ × β)} [LawfulBEq κ]
    (related : List.Forall₂ (fun x y => x.1 = y.1 ∧ r x.1 x.2 y.2) xs ys) (k : κ) :
    Paired (r k) (xs.lookup k) (ys.lookup k) := by
  induction related with
  | nil => exact .none
  | @cons x y xs ys first _ ih =>
    obtain ⟨key, a⟩ := x
    obtain ⟨_, b⟩ := y
    obtain ⟨rfl, value⟩ := first
    rw [List.lookup_cons, List.lookup_cons]
    cases same : k == key with
    | true =>
      rw [eq_of_beq same]
      exact .some value
    | false => exact ih

theorem Paired.find? {α β : Type} {r : α → β → Prop} {p : α → Bool} {q : β → Bool} {xs : List α}
    {ys : List β} (related : List.Forall₂ r xs ys) (same : ∀ x y, r x y → p x = q y) :
    Paired r (xs.find? p) (ys.find? q) := by
  induction related with
  | nil => exact .none
  | @cons x y xs ys first _ ih =>
    rw [List.find?_cons, List.find?_cons, same x y first]
    cases q y with
    | true => exact .some first
    | false => exact ih

/-- The symbol is one whose name stands for this. -/
def Meant.Fits (x : Symbol) : Meant → Prop
  | .type t => (x.kind = .cls ∨ x.kind = .enum) ∧ ∃ u, x.type = some u ∧ u.bare = t
  | .binding _ => x.kind = .abstraction ∧ x.members.isSome
  | .other => x.kind ≠ .cls ∧ x.kind ≠ .enum ∧ x.kind ≠ .abstraction

theorem Meant.Fits.mono {x y : Symbol} (grown : x.Grows y) {m : Meant} (fits : m.Fits x) :
    m.Fits y := by
  cases m with
  | type t =>
    obtain ⟨kind, u, type, bare⟩ := fits
    refine ⟨by rwa [grown.kind], u, grown.settled ?_ u type, bare⟩
    rcases kind with kind | kind <;> (rw [kind]; rfl)
  | binding target =>
    obtain ⟨m, members⟩ := Option.isSome_iff_exists.mp fits.2
    exact ⟨grown.kind.trans fits.1, Option.isSome_iff_exists.mpr ⟨m, grown.members m members⟩⟩
  | other => rwa [Meant.Fits, grown.kind]

theorem Meant.Fits.other {x : Symbol} {m : Meant} (fits : m.Fits x) (plain : Meant.other.Fits x) :
    m = .other := by
  obtain ⟨cls, enum, abstraction⟩ := plain
  cases m with
  | type t => exact (fits.1.elim cls enum).elim
  | binding target => exact absurd fits.1 abstraction
  | other => rfl

namespace SymbolTable

variable {t t' : SymbolTable} {ls : List Landmark} {sc : ScopeId} {id : SymbolId} {π : Path}
  {name : String} {meant : Meant}

/-- The table declares just these landmarks. -/
structure Charted (t : SymbolTable) (ls : List Landmark) : Prop where
  rooted : t.Rooted
  declared : ∀ sc, ∀ id ∈ (t.scope sc).order, ∃ l ∈ ls, t.At sc l.path ∧
    (t.symbol id).name = l.name ∧ l.meant.Fits (t.symbol id)
  found : ∀ l ∈ ls, ∃ sc id, t.At sc l.path ∧ t.lookupLocal? sc l.name = some id
  agree : Landmark.Agree ls

theorem Charted.fits (charted : t.Charted ls) {l : Landmark} (listed : l ∈ ls)
    (here : t.At sc l.path) (found : t.lookupLocal? sc l.name = some id) :
    l.meant.Fits (t.symbol id) := by
  obtain ⟨member, named⟩ := lookupLocal?_mem found
  obtain ⟨l', listed', here', named', fits⟩ := charted.declared sc id member
  have path := here.path_unique charted.rooted here'
  rwa [charted.agree l listed l' listed' path (named.symm.trans named')]

/-- What a table needs to keep its chart when a new symbol is declared in one of its scopes. -/
structure Enters (t t' : SymbolTable) (sc : ScopeId) (id : SymbolId) : Prop where
  grown : t.Grows t'
  orders : ∀ c, (t'.scope c).order = if c = sc then (t.scope c).order ++ [id] else (t.scope c).order
  fresh : id = t.symbols.size
  size : t'.symbols.size = t.symbols.size + 1
  symbols : ∀ i < t.symbols.size, t'.symbol i = t.symbol i
  opens : ∀ m, (t'.symbol id).members = some m → t'.Opens sc id m

theorem Enters.known (enters : t.Enters t' sc id) : id < t'.symbols.size := by
  rw [enters.fresh, enters.size]
  exact Nat.lt_succ_self _

theorem Enters.rooted (rooted : t.Rooted) (enters : t.Enters t' sc id) : t'.Rooted := by
  have root := enters.grown.scope _ rooted.size
  have split : ∀ {c i}, i ∈ (t'.scope c).order → c = sc ∧ i = id ∨ i ∈ (t.scope c).order := by
    intro c i member
    rw [enters.orders] at member
    split at member
    · next same =>
      rcases List.mem_append.mp member with old | new
      · exact .inr old
      · exact .inl ⟨same, List.mem_singleton.mp new⟩
    · exact .inr member
  refine ⟨Nat.lt_of_lt_of_le rooted.size enters.grown.scopes, root.chain.trans rooted.chain,
    root.owner.trans rooted.owner, fun c i member => ?_, fun c i member m members => ?_⟩
  · rcases split member with ⟨-, rfl⟩ | old
    · exact enters.known
    · exact Nat.lt_of_lt_of_le (rooted.known c i old) enters.grown.symbols
  · rcases split member with ⟨rfl, rfl⟩ | old
    · exact enters.opens m members
    · have lt := rooted.known c i old
      rw [enters.symbols i lt] at members
      exact (rooted.opened c i old m members).mono enters.grown lt old

theorem Enters.settle (enters : t.Enters t' sc id) (untyped : (t'.symbol id).type = none)
    (u : Ty) : t.Enters (t'.modifySymbol id fun x => { x with type := some u }) sc id := by
  have symbol := fun i => t'.symbol_modifySymbol id i fun x => { x with type := some u }
  refine ⟨enters.grown.trans (t'.modifySymbol_grows id ⟨rfl, rfl, rfl, fun _ h => h, fun _ => rfl,
    fun _ _ type => ?_⟩), enters.orders, enters.fresh, Array.size_modify.trans enters.size,
    fun i lt => ?_, fun m opened => ?_⟩
  · rw [untyped] at type
    cases type
  · have other : i ≠ id := Nat.ne_of_lt (enters.fresh ▸ lt)
    rw [symbol, if_neg fun same => other same.1]
    exact enters.symbols i lt
  · rw [symbol, if_pos ⟨rfl, enters.known⟩] at opened
    obtain ⟨known, owner, chain, kind⟩ := enters.opens m opened
    refine ⟨known, owner, chain, ?_⟩
    rw [symbol]
    split <;> exact kind

theorem Enters.lookupLocal? (rooted : t.Rooted) (enters : t.Enters t' sc id)
    (new : t.lookupLocal? sc (t'.symbol id).name = none) :
    t'.lookupLocal? sc (t'.symbol id).name = some id := by
  unfold SymbolTable.lookupLocal? at new ⊢
  rw [enters.orders, if_pos rfl, List.find?_append]
  have before : (t.scope sc).order.find? (fun i => (t'.symbol i).name == (t'.symbol id).name) =
      none := by
    refine List.find?_eq_none.mpr fun i member => ?_
    rw [(enters.grown.symbol i (rooted.known sc i member)).name]
    exact List.find?_eq_none.mp new i member
  rw [before]
  simp

/-- A symbol under a name that is new in its scope, or shared by functions, is a new landmark. -/
theorem Charted.enter (charted : t.Charted ls) (enters : t.Enters t' sc id) (here : t.At sc π)
    (named : (t'.symbol id).name = name) (fits : meant.Fits (t'.symbol id))
    (shares : ∀ i, t.lookupLocal? sc name = some i → meant = .other ∧
      Meant.other.Fits (t.symbol i)) : t'.Charted (ls ++ [⟨π, name, meant⟩]) := by
  have rooted := charted.rooted
  have grown := enters.grown
  have same : ∀ l ∈ ls, l.path = π → l.name = name → l.meant = meant := by
    intro l listed path own
    obtain ⟨sc', i, there, before⟩ := charted.found l listed
    obtain rfl := there.scope_unique (path ▸ here)
    obtain ⟨other, plain⟩ := shares i (own ▸ before)
    rw [other]
    exact (charted.fits listed there before).other plain
  refine ⟨enters.rooted rooted, fun c i member => ?_, fun l listed => ?_, ?_⟩
  · rw [enters.orders] at member
    have old : i ∈ (t.scope c).order → ∃ l ∈ ls ++ [⟨π, name, meant⟩], t'.At c l.path ∧
        (t'.symbol i).name = l.name ∧ l.meant.Fits (t'.symbol i) := by
      intro member
      obtain ⟨l, listed, there, own, fits⟩ := charted.declared c i member
      have later := grown.symbol i (rooted.known c i member)
      exact ⟨l, List.mem_append_left _ listed, there.mono rooted grown, later.name.trans own,
        fits.mono later⟩
    split at member
    · next same =>
      rcases List.mem_append.mp member with member | member
      · exact old member
      · obtain rfl := List.mem_singleton.mp member
        exact ⟨_, List.mem_append_right _ (List.mem_singleton_self _),
          same ▸ here.mono rooted grown, named, fits⟩
    · exact old member
  · rcases List.mem_append.mp listed with listed | new
    · obtain ⟨c, i, there, before⟩ := charted.found l listed
      refine ⟨c, i, there.mono rooted grown, ?_⟩
      exact grown.lookupLocal? (there.known rooted) (rooted.known c) before
    · obtain rfl := List.mem_singleton.mp new
      have isSome : (t'.lookupLocal? sc name).isSome := by
        rw [lookupLocal?, List.find?_isSome, enters.orders, if_pos rfl]
        exact ⟨id, List.mem_append_right _ (List.mem_singleton_self _), beq_iff_eq.mpr named⟩
      obtain ⟨i, found⟩ := Option.isSome_iff_exists.mp isSome
      exact ⟨sc, i, here.mono rooted grown, found⟩
  · exact charted.agree.snoc same

theorem Charted.again (charted : t.Charted ls) (here : t.At sc π)
    (found : t.lookupLocal? sc name = some id) (plain : Meant.other.Fits (t.symbol id)) :
    t.Charted (ls ++ [⟨π, name, .other⟩]) := by
  have same : ∀ l ∈ ls, l.path = π → l.name = name → l.meant = .other := by
    rintro l listed rfl rfl
    exact (charted.fits listed here found).other plain
  refine { charted with
    declared := fun c i member => ?_, found := fun l listed => ?_, agree := charted.agree.snoc same }
  · obtain ⟨l, listed, rest⟩ := charted.declared c i member
    exact ⟨l, List.mem_append_left _ listed, rest⟩
  · rcases List.mem_append.mp listed with listed | new
    · exact charted.found l listed
    · obtain rfl := List.mem_singleton.mp new
      exact ⟨sc, id, here, found⟩

theorem Charted.keep (charted : t.Charted ls) (grown : t.Grows t')
    (orders : ∀ c, (t'.scope c).order = (t.scope c).order)
    (members : ∀ i < t.symbols.size, (t'.symbol i).members = (t.symbol i).members) :
    t'.Charted ls := by
  have rooted := charted.rooted
  have root := grown.scope _ rooted.size
  refine ⟨⟨Nat.lt_of_lt_of_le rooted.size grown.scopes, root.chain.trans rooted.chain,
    root.owner.trans rooted.owner, fun c i member => ?_, fun c i member m opened => ?_⟩,
    fun c i member => ?_, fun l listed => ?_, charted.agree⟩
  all_goals try rw [orders] at member
  · exact Nat.lt_of_lt_of_le (rooted.known c i member) grown.symbols
  · have lt := rooted.known c i member
    rw [members i lt] at opened
    exact (rooted.opened c i member m opened).mono grown lt member
  · obtain ⟨l, listed, there, own, fits⟩ := charted.declared c i member
    have later := grown.symbol i (rooted.known c i member)
    exact ⟨l, listed, there.mono rooted grown, later.name.trans own, fits.mono later⟩
  · obtain ⟨c, i, there, found⟩ := charted.found l listed
    refine ⟨c, i, there.mono rooted grown, ?_⟩
    exact grown.lookupLocal? (there.known rooted) (rooted.known c) found

/-! ### Looking names up -/

/-- The symbol is the first of the landmark's name in the scope at its path. -/
structure Stands (t : SymbolTable) (id : SymbolId) (l : Landmark) : Prop where
  fits : l.meant.Fits (t.symbol id)
  found : ∃ sc, t.At sc l.path ∧ t.lookupLocal? sc l.name = some id

variable {c : Chart}

theorem Charted.at? (charted : t.Charted c.landmarks) (here : t.At sc π) (name : String) :
    Paired (t.Stands · ·) (t.lookupLocal? sc name) (c.at? π name) := by
  cases known : c.at? π name with
  | some l =>
    have listed := List.mem_of_find?_eq_some known
    have key := List.find?_some known
    simp only [Bool.and_eq_true, decide_eq_true_eq] at key
    obtain ⟨rfl, rfl⟩ := key
    obtain ⟨sc', id, there, found⟩ := charted.found l listed
    obtain rfl := there.scope_unique here
    rw [found]
    exact .some ⟨charted.fits listed here found, _, here, found⟩
  | none =>
    cases found : t.lookupLocal? sc name with
    | none => exact .none
    | some id =>
      obtain ⟨member, named⟩ := lookupLocal?_mem found
      obtain ⟨l, listed, there, own, -⟩ := charted.declared sc id member
      have path := there.path_unique charted.rooted here
      have := List.find?_eq_none.mp known l listed
      simp [path, ← own, named] at this

theorem Charted.through? (charted : t.Charted c.landmarks) {l : Landmark}
    (stands : t.Stands id l) (parts : List String) :
    Paired (t.Stands · ·) (Resolution.throughMembers? t id parts) (c.through? l parts) := by
  induction parts generalizing id l with
  | nil => exact .some stands
  | cons part parts ih =>
    obtain ⟨sc, here, found⟩ := stands.found
    rw [Resolution.throughMembers?, Chart.through?]
    cases members : (t.symbol id).members with
    | some m =>
      dsimp only
      have inner := charted.at? (.inner here found members) part
      revert inner
      generalize t.lookupLocal? m part = next, c.at? (l.name :: l.path) part = landmark
      rintro (⟨stands⟩ | _)
      · exact ih stands
      · exact .none
    | none =>
      -- a landmark inside of this one would stand in a scope of its members
      suffices none : c.at? (l.name :: l.path) part = .none by
        rw [none]
        exact .none
      refine List.find?_eq_none.mpr fun l' listed same => ?_
      simp only [Bool.and_eq_true, decide_eq_true_eq] at same
      obtain ⟨sc', id', there, -⟩ := charted.found l' listed
      rw [same.1] at there
      cases there with
      | inner around found' members' =>
        obtain rfl := around.scope_unique here
        obtain rfl := Option.some.inj (found'.symm.trans found)
        rw [members] at members'
        cases members'

theorem Charted.lookup? (charted : t.Charted c.landmarks) (here : t.At sc π) (name : String) :
    Paired (t.Stands · ·) (t.lookup? sc name) (π.tails.findSome? (c.at? · name)) :=
  Paired.findSome? (here.chain charted.rooted) fun there => charted.at? there name

end SymbolTable

end TastyLang
