import Mathlib.Data.List.Forall2
import TastyLang.Scope.Basic

/-!
# Symbol tables only grow

Every operation on a symbol table keeps the names and kinds of its symbols and what its scopes
declare (`Extends`). A declaration that succeeds adds a name that the scope did not declare before,
unless functions share it.
-/

namespace TastyLang

theorem mem_modify {α : Type} {xs : Array α} {i : Nat} {f : α → α} {y : α}
    (h : y ∈ xs.modify i f) : y ∈ xs ∨ ∃ x ∈ xs, y = f x := by
  obtain ⟨k, lt, rfl⟩ := Array.mem_iff_getElem.mp h
  rw [Array.size_modify] at lt
  rw [Array.getElem_modify]
  split
  · exact .inr ⟨xs[k], Array.getElem_mem lt, rfl⟩
  · exact .inl (Array.getElem_mem lt)

namespace SymbolTable

/-- Symbols keep their names and kinds, and scopes keep what is declared in them. -/
structure Extends (t t' : SymbolTable) : Prop where
  symbols : t.symbols.size ≤ t'.symbols.size
  names : ∀ id < t.symbols.size, (t'.symbol id).name = (t.symbol id).name
  kinds : ∀ id < t.symbols.size, (t'.symbol id).kind = (t.symbol id).kind
  scopes : t.scopes.size ≤ t'.scopes.size
  orders : ∀ sc < t.scopes.size, (t.scope sc).order ⊆ (t'.scope sc).order

namespace Extends

theorem refl (t : SymbolTable) : t.Extends t :=
  ⟨Nat.le_refl _, fun _ _ => rfl, fun _ _ => rfl, Nat.le_refl _, fun _ _ => List.Subset.refl _⟩

theorem trans {t t' t'' : SymbolTable} (h : t.Extends t') (h' : t'.Extends t'') :
    t.Extends t'' where
  symbols := Nat.le_trans h.symbols h'.symbols
  names id lt := (h'.names id (Nat.lt_of_lt_of_le lt h.symbols)).trans (h.names id lt)
  kinds id lt := (h'.kinds id (Nat.lt_of_lt_of_le lt h.symbols)).trans (h.kinds id lt)
  scopes := Nat.le_trans h.scopes h'.scopes
  orders sc lt :=
    List.Subset.trans (h.orders sc lt) (h'.orders sc (Nat.lt_of_lt_of_le lt h.scopes))

end Extends

theorem symbol_alloc (t : SymbolTable) (s : Symbol) (id : SymbolId) :
    (t.alloc s).1.symbol id = if id = t.symbols.size then s else t.symbol id := by
  simp only [alloc, symbol, Array.getD_eq_getD_getElem?, Array.getElem?_push]
  split <;> rfl

theorem symbol_modifySymbol (t : SymbolTable) (id i : SymbolId) (f : Symbol → Symbol) :
    (t.modifySymbol id f).symbol i =
      if i = id ∧ i < t.symbols.size then f (t.symbol i) else t.symbol i := by
  simp only [modifySymbol, symbol, Array.getD_eq_getD_getElem?, Array.getElem?_modify]
  grind

theorem scope_child (t : SymbolTable) (parent : Option ScopeId) (kind : ScopeKind)
    (owner : Option SymbolId) (sc : ScopeId) : (t.child parent kind owner).1.scope sc =
      if sc = t.scopes.size then ⟨kind, owner, t.scopes.size :: t.chainOf parent, []⟩
      else t.scope sc := by
  simp only [child, scope, Array.getD_eq_getD_getElem?, Array.getElem?_push]
  split <;> rfl

theorem alloc_extends (t : SymbolTable) (s : Symbol) : t.Extends (t.alloc s).1 := by
  have same : ∀ id < t.symbols.size, (t.alloc s).1.symbol id = t.symbol id := fun id lt => by
    rw [symbol_alloc, if_neg (Nat.ne_of_lt lt)]
  refine ⟨by simp [alloc], fun id lt => ?_, fun id lt => ?_, Nat.le_refl _,
    fun _ _ => List.Subset.refl _⟩
  · rw [same id lt]
  · rw [same id lt]

theorem modifySymbol_extends (t : SymbolTable) (id : SymbolId) {f : Symbol → Symbol}
    (name : ∀ s, (f s).name = s.name) (kind : ∀ s, (f s).kind = s.kind) :
    t.Extends (t.modifySymbol id f) := by
  refine ⟨by simp [modifySymbol], fun i _ => ?_, fun i _ => ?_, Nat.le_refl _,
    fun _ _ => List.Subset.refl _⟩
  · rw [symbol_modifySymbol]
    split
    · exact name _
    · rfl
  · rw [symbol_modifySymbol]
    split
    · exact kind _
    · rfl

theorem child_extends (t : SymbolTable) (parent : Option ScopeId) (kind : ScopeKind)
    (owner : Option SymbolId) : t.Extends (t.child parent kind owner).1 := by
  refine ⟨Nat.le_refl _, fun _ _ => rfl, fun _ _ => rfl, ?_, ?_⟩
  · simp [child]
  · intro sc lt
    rw [scope_child, if_neg (Nat.ne_of_lt lt)]
    exact List.Subset.refl _

def Declares (t : SymbolTable) (sc : ScopeId) (name : String) : Prop :=
  ∃ id ∈ (t.scope sc).order, id < t.symbols.size ∧ (t.symbol id).name = name

theorem Declares.mono {t t' : SymbolTable} {sc : ScopeId} {name : String} (ext : t.Extends t')
    (lt : sc < t.scopes.size) : t.Declares sc name → t'.Declares sc name := by
  rintro ⟨id, member, known, same⟩
  exact ⟨id, ext.orders sc lt member, Nat.lt_of_lt_of_le known ext.symbols,
    (ext.names id known).trans same⟩

theorem lookupLocal?_none {t : SymbolTable} {sc : ScopeId} {name : String}
    (none : t.lookupLocal? sc name = none) : ¬ t.Declares sc name := by
  rintro ⟨id, member, _, same⟩
  have := List.find?_eq_none.mp none id member
  simp [same] at this

variable {pos : Pos}

theorem declare_ok {t t' : SymbolTable} {sc : ScopeId} {id : SymbolId}
    (h : t.declare sc id pos = .ok t') :
    t' = { symbols := t.symbols.modify id fun s => { s with home := some sc }
           scopes := t.scopes.modify sc fun c => { c with order := c.order ++ [id] } } ∧
      (t.lookupLocal? sc (t.symbol id).name = none ∨ (t.symbol id).kind = .func) := by
  simp only [declare] at h
  split at h
  · split at h
    · next shared =>
      cases h
      simp only [mayShare, Bool.and_eq_true, beq_iff_eq] at shared
      exact ⟨rfl, .inr shared.2⟩
    · cases h
  · next none =>
    cases h
    exact ⟨rfl, .inl none⟩

theorem declare_extends {t t' : SymbolTable} {sc : ScopeId} {id : SymbolId}
    (h : t.declare sc id pos = .ok t') : t.Extends t' := by
  obtain ⟨rfl, -⟩ := declare_ok h
  have named := modifySymbol_extends t id (f := fun s => { s with home := some sc })
    (fun _ => rfl) (fun _ => rfl)
  refine ⟨named.symbols, named.names, named.kinds, by simp, fun c _ => ?_⟩
  simp only [scope, Array.getD_eq_getD_getElem?, Array.getElem?_modify]
  split
  · cases t.scopes[c]? <;> simp
  · exact List.Subset.refl _

theorem declare_symbols {t t' : SymbolTable} {sc : ScopeId} {id : SymbolId}
    (h : t.declare sc id pos = .ok t') {y : Symbol} (member : y ∈ t'.symbols) :
    ∃ x ∈ t.symbols, y.name = x.name ∧ y.type = x.type := by
  obtain ⟨rfl, -⟩ := declare_ok h
  dsimp only at member
  rcases mem_modify member with old | ⟨x, old, rfl⟩
  · exact ⟨y, old, rfl, rfl⟩
  · exact ⟨x, old, rfl, rfl⟩

theorem declare_declares {t t' : SymbolTable} {sc : ScopeId} {id : SymbolId}
    (h : t.declare sc id pos = .ok t') (scope : sc < t.scopes.size)
    (known : id < t.symbols.size) : t'.Declares sc (t.symbol id).name := by
  have ext := declare_extends h
  refine ⟨id, ?_, Nat.lt_of_lt_of_le known ext.symbols, ext.names id known⟩
  obtain ⟨rfl, -⟩ := declare_ok h
  simp [SymbolTable.scope, Array.getD_eq_getD_getElem?, Array.getElem_modify, scope]

end SymbolTable

/-!
## What lasts in a symbol table

A symbol keeps its name, its kind and its members, and a type that was settled stays; a scope keeps
the scopes around it and only appends to what it declares (`SymbolTable.Grows`). So a name that was
found in a scope is found there ever after.
-/


/-- Whether a symbol of this kind gets its type once and for all. -/
def SymbolKind.settles : SymbolKind → Bool
  | .var | .abstraction => false
  | _ => true

structure Symbol.Grows (x y : Symbol) : Prop where
  name : y.name = x.name
  kind : y.kind = x.kind
  unknown : y.unknown = x.unknown
  members : ∀ m, x.members = some m → y.members = some m
  typed : x.type.isSome → y.type.isSome
  settled : x.kind.settles → ∀ t, x.type = some t → y.type = some t

structure Scope.Grows (c d : Scope) : Prop where
  kind : d.kind = c.kind
  owner : d.owner = c.owner
  chain : d.chain = c.chain
  order : c.order <+: d.order

theorem Symbol.Grows.refl (x : Symbol) : x.Grows x :=
  ⟨rfl, rfl, rfl, fun _ h => h, fun h => h, fun _ _ h => h⟩

theorem Symbol.Grows.trans {x y z : Symbol} (h : x.Grows y) (h' : y.Grows z) : x.Grows z where
  name := h'.name.trans h.name
  kind := h'.kind.trans h.kind
  unknown := h'.unknown.trans h.unknown
  members m found := h'.members m (h.members m found)
  typed found := h'.typed (h.typed found)
  settled kind t found := h'.settled (h.kind ▸ kind) t (h.settled kind t found)

theorem Scope.Grows.refl (c : Scope) : c.Grows c := ⟨rfl, rfl, rfl, List.prefix_rfl⟩

theorem Scope.Grows.trans {c d e : Scope} (h : c.Grows d) (h' : d.Grows e) : c.Grows e :=
  ⟨h'.kind.trans h.kind, h'.owner.trans h.owner, h'.chain.trans h.chain, h.order.trans h'.order⟩

namespace SymbolTable

structure Grows (t t' : SymbolTable) : Prop where
  symbols : t.symbols.size ≤ t'.symbols.size
  scopes : t.scopes.size ≤ t'.scopes.size
  symbol : ∀ id < t.symbols.size, (t.symbol id).Grows (t'.symbol id)
  scope : ∀ sc < t.scopes.size, (t.scope sc).Grows (t'.scope sc)

theorem Grows.refl (t : SymbolTable) : t.Grows t :=
  ⟨Nat.le_refl _, Nat.le_refl _, fun _ _ => .refl _, fun _ _ => .refl _⟩

theorem Grows.trans {t t' t'' : SymbolTable} (h : t.Grows t') (h' : t'.Grows t'') :
    t.Grows t'' where
  symbols := Nat.le_trans h.symbols h'.symbols
  scopes := Nat.le_trans h.scopes h'.scopes
  symbol id lt := (h.symbol id lt).trans (h'.symbol id (Nat.lt_of_lt_of_le lt h.symbols))
  scope sc lt := (h.scope sc lt).trans (h'.scope sc (Nat.lt_of_lt_of_le lt h.scopes))

/-! ### The operations -/

/-- The table after a declaration that succeeds. -/
def entered (t : SymbolTable) (sc : ScopeId) (id : SymbolId) : SymbolTable :=
  { symbols := t.symbols.modify id fun s => { s with home := some sc }
    scopes := t.scopes.modify sc fun c => { c with order := c.order ++ [id] } }

theorem symbol_entered (t : SymbolTable) (sc : ScopeId) (id i : SymbolId) :
    (t.entered sc id).symbol i =
      if i = id ∧ i < t.symbols.size then { t.symbol i with home := some sc } else t.symbol i :=
  t.symbol_modifySymbol id i fun s => { s with home := some sc }

theorem scope_entered (t : SymbolTable) (sc c : ScopeId) (id : SymbolId) :
    (t.entered sc id).scope c =
      if c = sc ∧ c < t.scopes.size then { t.scope c with order := (t.scope c).order ++ [id] }
      else t.scope c := by
  simp only [entered, scope, Array.getD_eq_getD_getElem?, Array.getElem?_modify]
  grind

theorem symbol_of_le {t : SymbolTable} {id : SymbolId} (h : t.symbols.size ≤ id) :
    t.symbol id = default := by
  simp [symbol, Array.getD_eq_getD_getElem?, h]

theorem scope_of_le {t : SymbolTable} {sc : ScopeId} (h : t.scopes.size ≤ sc) :
    t.scope sc = default := by
  simp [scope, Array.getD_eq_getD_getElem?, h]

theorem alloc_grows (t : SymbolTable) (x : Symbol) : t.Grows (t.alloc x).1 := by
  refine ⟨by simp [alloc], Nat.le_refl _, fun id lt => ?_, fun _ _ => .refl _⟩
  rw [symbol_alloc, if_neg (Nat.ne_of_lt lt)]
  exact .refl _

theorem modifySymbol_grows (t : SymbolTable) (id : SymbolId) {f : Symbol → Symbol}
    (h : (t.symbol id).Grows (f (t.symbol id))) : t.Grows (t.modifySymbol id f) := by
  refine ⟨by simp [modifySymbol], Nat.le_refl _, fun i _ => ?_, fun _ _ => .refl _⟩
  rw [symbol_modifySymbol]
  split
  · next same =>
    rw [same.1]
    exact h
  · exact .refl _

theorem entered_grows (t : SymbolTable) (sc : ScopeId) (id : SymbolId) :
    t.Grows (t.entered sc id) := by
  refine ⟨by simp [entered], by simp [entered], fun i _ => ?_, fun c _ => ?_⟩
  · rw [symbol_entered]
    split
    · exact ⟨rfl, rfl, rfl, fun _ h => h, fun h => h, fun _ _ h => h⟩
    · exact .refl _
  · rw [scope_entered]
    split
    · exact ⟨rfl, rfl, rfl, List.prefix_append _ _⟩
    · exact .refl _

theorem child_grows (t : SymbolTable) (parent : Option ScopeId) (kind : ScopeKind)
    (owner : Option SymbolId) : t.Grows (t.child parent kind owner).1 := by
  refine ⟨Nat.le_refl _, by simp [child], fun _ _ => .refl _, fun sc lt => ?_⟩
  rw [scope_child, if_neg (Nat.ne_of_lt lt)]
  exact .refl _

/-- A symbol that is a class, with its type and its members. -/
structure IsClass (t : SymbolTable) (id : SymbolId) : Prop where
  known : id < t.symbols.size
  kind : (t.symbol id).kind = .cls
  type : ∃ full number, (t.symbol id).type = some (.cls full number)
  members : ∃ m, (t.symbol id).members = some m

theorem IsClass.mono {t t' : SymbolTable} {id : SymbolId} (h : t.IsClass id) (grown : t.Grows t') :
    t'.IsClass id := by
  have later := grown.symbol id h.known
  obtain ⟨full, number, type⟩ := h.type
  obtain ⟨m, members⟩ := h.members
  exact ⟨Nat.lt_of_lt_of_le h.known grown.symbols, later.kind.trans h.kind,
    ⟨full, number, later.settled (by rw [h.kind]; rfl) _ type⟩, ⟨m, later.members m members⟩⟩

/-! ### Looking names up -/

theorem lookupLocal?_mem {t : SymbolTable} {sc : ScopeId} {name : String} {id : SymbolId}
    (found : t.lookupLocal? sc name = some id) :
    id ∈ (t.scope sc).order ∧ (t.symbol id).name = name :=
  ⟨List.mem_of_find?_eq_some found, by simpa using List.find?_some found⟩

theorem Grows.lookupLocal? {t t' : SymbolTable} (h : t.Grows t') {sc : ScopeId} {name : String}
    {id : SymbolId} (lt : sc < t.scopes.size)
    (known : ∀ i ∈ (t.scope sc).order, i < t.symbols.size)
    (found : t.lookupLocal? sc name = some id) : t'.lookupLocal? sc name = some id := by
  obtain ⟨later, same⟩ := (h.scope sc lt).order
  have names : ∀ i ∈ (t.scope sc).order, (t'.symbol i).name = (t.symbol i).name :=
    fun i member => (h.symbol i (known i member)).name
  have front : (t.scope sc).order.find? (fun i => (t'.symbol i).name == name) = some id := by
    rw [← found]
    unfold SymbolTable.lookupLocal?
    generalize (t.scope sc).order = order at names
    induction order with
    | nil => rfl
    | cons i is ih =>
      have rest := ih fun j member => names j (List.mem_cons_of_mem _ member)
      simp only [List.find?_cons, names i List.mem_cons_self, rest]
  unfold SymbolTable.lookupLocal?
  rw [← same, List.find?_append, front]
  rfl

end SymbolTable

/-! ## Paths of scopes

A scope that is reached through names has these names as its path (`SymbolTable.At`). The numbers of
scopes and symbols depend on the order of declarations, paths do not: in a table whose scopes know
their owners (`SymbolTable.Rooted`) a scope has one path, and a path leads to one scope.
-/

/-- The names of the owners of a scope and of those around it, the nearest first. -/
abbrev Path := List String

/-- A name with the names of the owners around it. -/
def Path.dotted (π : Path) (name : String) : String :=
  π.foldl (fun inner owner => owner ++ "." ++ inner) name

namespace SymbolTable

variable {t t' : SymbolTable} {sc sc' m : ScopeId} {id : SymbolId} {π π' : Path} {name : String}

inductive At (t : SymbolTable) : ScopeId → Path → Prop where
  | root : t.At global []
  | inner {sc m : ScopeId} {id : SymbolId} {π : Path} {name : String} :
    t.At sc π → t.lookupLocal? sc name = some id → (t.symbol id).members = some m →
    t.At m (name :: π)

/-- The scope of a symbol's members is known, has the symbol as its owner, and stands in the scope
that declares the symbol. -/
structure Opens (t : SymbolTable) (sc : ScopeId) (id : SymbolId) (m : ScopeId) : Prop where
  known : m < t.scopes.size
  owner : (t.scope m).owner = some id
  chain : (t.scope m).chain = m :: (t.scope sc).chain
  kind : (t.symbol id).kind.isTypeName = true

theorem Opens.mono (opens : t.Opens sc id m) (grown : t.Grows t') (lt : id < t.symbols.size)
    (member : id ∈ (t.scope sc).order) : t'.Opens sc id m := by
  have later := grown.scope m opens.known
  have inside : sc < t.scopes.size := by
    by_contra out
    rw [scope_of_le (Nat.le_of_not_lt out)] at member
    cases member
  refine ⟨Nat.lt_of_lt_of_le opens.known grown.scopes, later.owner.trans opens.owner, ?_, ?_⟩
  · rw [later.chain, opens.chain, (grown.scope sc inside).chain]
  · rw [(grown.symbol id lt).kind]
    exact opens.kind

/-- A table that begins with the scope of the file, and whose scopes declare known symbols. -/
structure Rooted (t : SymbolTable) : Prop where
  size : global < t.scopes.size
  chain : (t.scope global).chain = [global]
  owner : (t.scope global).owner = none
  known : ∀ sc, ∀ id ∈ (t.scope sc).order, id < t.symbols.size
  opened : ∀ sc, ∀ id ∈ (t.scope sc).order, ∀ m, (t.symbol id).members = some m → t.Opens sc id m

theorem Rooted.opens (rooted : t.Rooted) (found : t.lookupLocal? sc name = some id)
    (members : (t.symbol id).members = some m) : t.Opens sc id m :=
  rooted.opened sc id (lookupLocal?_mem found).1 m members

/-! ### One path, one scope -/

theorem At.known (rooted : t.Rooted) (here : t.At sc π) : sc < t.scopes.size := by
  cases here with
  | root => exact rooted.size
  | inner _ found members => exact (rooted.opens found members).known

theorem At.chain_head (rooted : t.Rooted) (here : t.At sc π) :
    ∃ rest, (t.scope sc).chain = sc :: rest := by
  cases here with
  | root => exact ⟨[], rooted.chain⟩
  | inner _ found members => exact ⟨_, (rooted.opens found members).chain⟩

theorem At.home_unique (rooted : t.Rooted) (here : t.At sc π) (there : t.At sc' π')
    (member : id ∈ (t.scope sc).order) (member' : id ∈ (t.scope sc').order)
    (members : (t.symbol id).members = some m) : sc = sc' := by
  have chain := (rooted.opened sc id member m members).chain
  have chain' := (rooted.opened sc' id member' m members).chain
  have chains := List.tail_eq_of_cons_eq (chain.symm.trans chain')
  obtain ⟨_, first⟩ := here.chain_head rooted
  obtain ⟨_, second⟩ := there.chain_head rooted
  rw [first, second] at chains
  exact List.head_eq_of_cons_eq chains

theorem At.path_unique (rooted : t.Rooted) (here : t.At sc π) (there : t.At sc π') : π = π' := by
  induction here generalizing π' with
  | root =>
    cases there with
    | root => rfl
    | inner _ found members =>
      have owner := (rooted.opens found members).owner
      rw [rooted.owner] at owner
      cases owner
  | @inner sc m id π name around found members ih =>
    have opens := rooted.opens found members
    cases there with
    | root =>
      have owner := opens.owner
      rw [rooted.owner] at owner
      cases owner
    | @inner sc' _ id' π' name' around' found' members' =>
      have opens' := rooted.opens found' members'
      obtain rfl : id = id' := Option.some.inj (opens.owner.symm.trans opens'.owner)
      obtain ⟨member, named⟩ := lookupLocal?_mem found
      obtain ⟨member', named'⟩ := lookupLocal?_mem found'
      obtain rfl := around.home_unique rooted around' member member' members
      rw [named.symm.trans named', ih around']

theorem At.scope_unique (here : t.At sc π) (there : t.At sc' π) : sc = sc' := by
  induction here generalizing sc' with
  | root =>
    cases there
    rfl
  | inner _ found members ih =>
    cases there with
    | inner around' found' members' =>
      obtain rfl := ih around'
      obtain rfl := Option.some.inj (found.symm.trans found')
      exact Option.some.inj (members.symm.trans members')

theorem At.chain (rooted : t.Rooted) (here : t.At sc π) :
    List.Forall₂ t.At (t.scope sc).chain π.tails := by
  induction here with
  | root =>
    rw [rooted.chain]
    exact .cons .root .nil
  | inner around found members ih =>
    rw [(rooted.opens found members).chain, List.tails]
    exact .cons (.inner around found members) ih

theorem At.mono (rooted : t.Rooted) (grown : t.Grows t') (here : t.At sc π) : t'.At sc π := by
  induction here with
  | root => exact .root
  | inner around found members ih =>
    have member := (lookupLocal?_mem found).1
    refine .inner ih (grown.lookupLocal? (around.known rooted) (rooted.known _) found) ?_
    exact (grown.symbol _ (rooted.known _ _ member)).members _ members

/-! ### Dotted names -/

theorem At.qualified (rooted : t.Rooted) (here : t.At sc π)
    (home : (t.symbol id).home = some sc) :
    t.qualified id = π.dotted (t.symbol id).name := by
  unfold SymbolTable.qualified
  dsimp only
  rw [home]
  dsimp only
  generalize (t.symbol id).name = inner
  clear home
  induction here generalizing inner with
  | root =>
    rw [rooted.chain, List.foldl_cons, rooted.owner]
    rfl
  | inner around found members ih =>
    have opens := rooted.opens found members
    rw [opens.chain, List.foldl_cons, opens.owner]
    dsimp only
    rw [if_pos opens.kind, (lookupLocal?_mem found).2]
    exact ih _

end SymbolTable

end TastyLang
