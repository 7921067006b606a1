import Mathlib.Data.List.Find
import TastyLang.Proofs.Resolution.Mentions
import TastyLang.Proofs.Resolution.Methods
import TastyLang.Proofs.Resolution.Walks

/-!
# What names in functions refer to

A name in a function that no parameter, block or loop around it declares refers to what it means where
the function stands, with all that the first two passes have declared (`Passed.mention`). While the
third pass resolves a function it declares names in scopes of its own only (`State.Later`), so the
scopes around the function stay as they are, and so do its class and the classes that it inherits from.
-/

namespace TastyLang

/-! ### What stays while functions are resolved -/

/-- A symbol stays what it is, but a variable may get another type. -/
structure Symbol.Kept (x y : Symbol) : Prop where
  name : y.name = x.name
  kind : y.kind = x.kind
  members : y.members = x.members
  type : x.kind ≠ .var → y.type = x.type

theorem Symbol.Kept.refl (x : Symbol) : x.Kept x := ⟨rfl, rfl, rfl, fun _ => rfl⟩

theorem Symbol.Kept.trans {x y z : Symbol} (h : x.Kept y) (h' : y.Kept z) : x.Kept z where
  name := h'.name.trans h.name
  kind := h'.kind.trans h.kind
  members := h'.members.trans h.members
  type other := (h'.type (h.kind ▸ other)).trans (h.type other)

namespace SymbolTable

variable {t t' t'' : SymbolTable} {own own' : Option ScopeId}

/-- Symbols stay what they are, and of the known scopes `own` alone declares more of them. -/
structure Later (own : Option ScopeId) (t t' : SymbolTable) : Prop where
  symbols : t.symbols.size ≤ t'.symbols.size
  symbol : ∀ id < t.symbols.size, (t.symbol id).Kept (t'.symbol id)
  scopes : t.scopes.size ≤ t'.scopes.size
  chain : ∀ sc < t.scopes.size, (t'.scope sc).chain = (t.scope sc).chain
  order : ∀ sc < t.scopes.size, own ≠ some sc → (t'.scope sc).order = (t.scope sc).order

theorem Later.refl (own : Option ScopeId) (t : SymbolTable) : t.Later own t :=
  ⟨Nat.le_refl _, fun _ _ => .refl _, Nat.le_refl _, fun _ _ => rfl, fun _ _ _ => rfl⟩

theorem Later.step (h : t.Later own t') (h' : t'.Later own' t'')
    (away : ∀ sc < t.scopes.size, own' = some sc → own = some sc) : t.Later own t'' where
  symbols := Nat.le_trans h.symbols h'.symbols
  symbol id lt := (h.symbol id lt).trans (h'.symbol id (Nat.lt_of_lt_of_le lt h.symbols))
  scopes := Nat.le_trans h.scopes h'.scopes
  chain sc lt := (h'.chain sc (Nat.lt_of_lt_of_le lt h.scopes)).trans (h.chain sc lt)
  order sc lt other := by
    have still := h'.order sc (Nat.lt_of_lt_of_le lt h.scopes) fun same => other (away sc lt same)
    exact still.trans (h.order sc lt other)

theorem alloc_later (t : SymbolTable) (x : Symbol) : t.Later own (t.alloc x).1 := by
  refine ⟨by simp [alloc], fun id lt => ?_, Nat.le_refl _, fun _ _ => rfl, fun _ _ _ => rfl⟩
  rw [symbol_alloc, if_neg (Nat.ne_of_lt lt)]
  exact .refl _

theorem child_later (t : SymbolTable) (parent : Option ScopeId) (kind : ScopeKind) (owner : Option SymbolId) :
    t.Later own (t.child parent kind owner).1 := by
  have same : ∀ sc < t.scopes.size, (t.child parent kind owner).1.scope sc = t.scope sc := fun sc lt => by
    rw [scope_child, if_neg (Nat.ne_of_lt lt)]
  refine ⟨Nat.le_refl _, fun _ _ => .refl _, by simp [child], fun sc lt => ?_, fun sc lt _ => ?_⟩
  · rw [same sc lt]
  · rw [same sc lt]

theorem modifySymbol_later (t : SymbolTable) (id : SymbolId) {f : Symbol → Symbol}
    (kept : (t.symbol id).Kept (f (t.symbol id))) : t.Later own (t.modifySymbol id f) := by
  refine ⟨by simp [modifySymbol], fun i _ => ?_, Nat.le_refl _, fun _ _ => rfl, fun _ _ _ => rfl⟩
  rw [symbol_modifySymbol]
  split
  · next same => rwa [same.1]
  · exact .refl _

theorem entered_later (t : SymbolTable) (sc : ScopeId) (id : SymbolId) :
    t.Later (some sc) (t.entered sc id) := by
  refine ⟨by simp [entered], fun i _ => ?_, by simp [entered], fun c _ => ?_, fun c _ other => ?_⟩
  · rw [symbol_entered]
    split
    · exact ⟨rfl, rfl, rfl, fun _ => rfl⟩
    · exact .refl _
  · rw [scope_entered]
    split <;> rfl
  · rw [scope_entered, if_neg fun same => other (congrArg some same.1.symm)]

theorem Later.lookupLocal? (later : t.Later none t') {sc : ScopeId} (lt : sc < t.scopes.size)
    (known : ∀ id ∈ (t.scope sc).order, id < t.symbols.size) (name : String) :
    t'.lookupLocal? sc name = t.lookupLocal? sc name := by
  unfold SymbolTable.lookupLocal?
  rw [later.order sc lt (by simp)]
  refine List.find?_congr fun id member => ?_
  rw [(later.symbol id (known id member)).name]

end SymbolTable

namespace Resolution

variable {table : Table} {file : File} {base s s' s'' : State} {fits : Span → SymbolId → Prop}
  {own own' : Option ScopeId} {p : Place}

/-- Of the scopes and symbols of the first state only the scope `own` is added to, functions, classes
and parameters are as they were, and the names that are resolved refer to what fits. -/
structure State.Later (fits : Span → SymbolId → Prop) (own : Option ScopeId) (s s' : State) : Prop where
  table : s.info.symbols.Later own s'.info.symbols
  hierarchy : s'.info.hierarchy = s.info.hierarchy
  classes : s'.classes = s.classes
  assumed : s'.assumed = s.assumed
  params : s'.info.params = s.info.params
  stand : ∀ span, s'.stand? span = s.stand? span
  vars : ∀ (span : Span) (id : SymbolId), s'.info.vars[span]? = some id → s.info.vars[span]? = some id ∨
    id < s'.info.symbols.symbols.size ∧ (s'.info.symbols.symbol id).kind = .var
  uses : ∀ (span : Span) (id : SymbolId), s'.info.uses[span]? = some id →
    s.info.uses[span]? = some id ∨ fits span id

namespace State.Later

theorem refl (fits : Span → SymbolId → Prop) (own : Option ScopeId) (s : State) : s.Later fits own s :=
  ⟨.refl _ _, rfl, rfl, rfl, rfl, fun _ => rfl, fun _ _ found => .inl found, fun _ _ found => .inl found⟩

theorem of_core (same : s'.core = s.core) : s.Later fits own s' := by
  simp only [State.core, Prod.mk.injEq] at same
  obtain ⟨symbols, hierarchy, params, vars, uses, -, classes, assumed, funcs, -⟩ := same
  refine ⟨symbols ▸ .refl _ _, hierarchy, classes, assumed, params, fun span => ?_,
    fun span id found => .inl (vars ▸ found), fun span id found => .inl (uses ▸ found)⟩
  rw [State.stand?, State.stand?, funcs]

theorem step (h : s.Later fits own s') (h' : s'.Later fits own' s'')
    (away : ∀ sc < s.info.symbols.scopes.size, own' = some sc → own = some sc) : s.Later fits own s'' where
  table := h.table.step h'.table away
  hierarchy := h'.hierarchy.trans h.hierarchy
  classes := h'.classes.trans h.classes
  assumed := h'.assumed.trans h.assumed
  params := h'.params.trans h.params
  stand span := (h'.stand span).trans (h.stand span)
  vars span id found := by
    rcases h'.vars span id found with before | new
    · refine (h.vars span id before).imp_right fun ⟨lt, kind⟩ => ?_
      exact ⟨Nat.lt_of_lt_of_le lt h'.table.symbols, (h'.table.symbol id lt).kind.trans kind⟩
    · exact .inr new
  uses span id found := (h'.uses span id found).elim (h.uses span id) .inr

theorem trans (h : s.Later fits own s') (h' : s'.Later fits own s'') : s.Later fits own s'' :=
  h.step h' fun _ _ same => same

theorem any (h : s.Later fits none s') : s.Later fits own s' := (refl fits own s).step h (by simp)

theorem inner (h : s.Later fits own s') {sc : ScopeId} (h' : s'.Later fits (some sc) s'')
    (new : s.info.symbols.scopes.size ≤ sc) : s.Later fits own s'' :=
  h.step h' fun _ lt same => absurd lt (Nat.not_lt_of_le (Option.some.inj same ▸ new))

theorem withSymbols {t : SymbolTable} (later : s.info.symbols.Later own t) :
    s.Later fits own (s.withSymbols t) :=
  { refl fits own s with table := later, vars := fun _ _ found => .inl found }

theorem withReturns (s : State) (ts : List Ty) : s.Later fits own { s with returns := ts } :=
  { refl fits own s with vars := fun _ _ found => .inl found }

theorem withResult (s : State) (span : Span) (t : Ty) :
    s.Later fits own { s with info.results := s.info.results.insert span t } :=
  { refl fits own s with vars := fun _ _ found => .inl found }

end State.Later

/-! ### Steps that declare nothing -/

/-- States behind `base` in which names are resolved; they stay among them while names are resolved that
refer to what fits. -/
structure Stage (base : State) (fits : Span → SymbolId → Prop) where
  holds : State → Prop
  later : ∀ {s}, holds s → base.Later fits none s
  lasts : ∀ {s s'}, holds s → s.Later fits none s' → holds s'

def Stage.course (g : Stage base fits) : Course where
  holds := g.holds
  leads := State.Later fits none
  refl := .refl fits none
  trans h h' := h.trans h'
  lasts := g.lasts

/-- A computation that declares nothing, and resolves names to what fits. -/
abbrev Follows {α : Type} (g : Stage base fits) (m : Resolver α) : Prop := g.course.Runs m

theorem Stage.composes (g : Stage base fits) : Composes (Follows g) where
  pure _ := .pure
  bind := .bind
  get := .get
  failType _ _ := .fail
  refuse _ _ _ := .fail
  alloc x := by
    refine ⟨fun {s _ s'} _ run => ?_⟩
    cases (alloc_run x s).symm.trans run
    exact .withSymbols (s.info.symbols.alloc_later x)
  note same := .modify fun s _ => .of_core (same s)

/-- All states in which names were resolved that refer to what fits. -/
def around (base : State) (fits : Span → SymbolId → Prop) : Stage base fits where
  holds s := base.Later fits none s
  later h := h
  lasts h later := h.trans later

/-- The names among some nodes are found to refer to what fits. -/
def Suits (g : Stage base fits) (p : Place) (ns : List Node) : Prop :=
  ∀ span name, .expr (.ident span name) ∈ ns →
    ∀ {s id s'}, g.holds s → bind p name s = .ok (id, s') → fits span id

theorem Suits.part {g : Stage base fits} {ns ns' : List Node} (h : Suits g p ns)
    (fewer : ∀ n ∈ ns', n ∈ ns) : Suits g p ns' := fun span name member => h span name (fewer _ member)

variable {ns : List Node}

theorem Suits.follows {g : Stage base fits} (suits : Suits g p ns)
    (demand : ∀ span, Follows g (p.demand span)) (span : Span) (name : String)
    (member : .expr (.ident span name) ∈ ns) : Follows g (ident p span name) := by
  refine ⟨fun {s _ s'} holds run => ?_⟩
  obtain ⟨id, s₁, bound, run⟩ := bind_ok run
  have first : s.Later fits none s₁ := (g.composes.bindName name).run holds bound
  obtain ⟨_, s₂, noted, run⟩ := bind_ok run
  have second : s₁.Later fits none s₂ := by
    obtain rfl := modify_ok noted
    refine { State.Later.refl fits none s₁ with uses := fun k i found => ?_ }
    rcases getElem?_insert_cases found with ⟨rfl, rfl⟩ | old
    · exact .inr (suits _ name member holds bound)
    · exact .inl old
  have before := first.trans second
  exact before.trans ((g.composes.useType demand span id).run (g.lasts holds before) run)

theorem expr_follows {g : Stage base fits} (demand : ∀ span, Follows g (p.demand span)) (e : Expr)
    (suits : Suits g p e.nodes) : Follows g (expr p e) :=
  g.composes.expr demand e (suits.follows demand)

/-- The stage in which a symbol is known to be that of a variable. -/
def Stage.withVar (g : Stage base fits) (id : SymbolId) : Stage base fits where
  holds s := g.holds s ∧ id < s.info.symbols.symbols.size ∧ (s.info.symbols.symbol id).kind = .var
  later h := g.later h.1
  lasts h later := ⟨g.lasts h.1 later, Nat.lt_of_lt_of_le h.2.1 later.table.symbols,
    (later.table.symbol id h.2.1).kind.trans h.2.2⟩

variable {id : SymbolId}

theorem varValue_later {g : Stage base fits} (demand : ∀ g : Stage base fits, ∀ span, Follows g (p.demand span))
    {d : VarDecl} {u : Unit} (suits : Suits g p (nodesIn Expr.nodes d.value))
    (holds : g.holds s) (lt : id < s.info.symbols.symbols.size)
    (kind : (s.info.symbols.symbol id).kind = .var) (run : varValue p d id s = .ok (u, s')) :
    s.Later fits none s' := by
  have sets : ∀ t, Follows (g.withVar id) (setType id t) := by
    refine fun t => ⟨fun {s _ s'} holds run => ?_⟩
    cases run
    exact .withSymbols (SymbolTable.modifySymbol_later _ _ ⟨rfl, rfl, rfl, fun other => absurd holds.2.2 other⟩)
  have inner : Suits (g.withVar id) p (nodesIn Expr.nodes d.value) :=
    fun span name member _ _ _ holds => suits span name member holds.1
  exact ((g.withVar id).composes.varValue (demand _) sets (inner.follows (demand _))).run ⟨holds, lt, kind⟩ run

/-! ### What names mean -/

/-- What a name means in a scope and a class: what the scopes from there on declare, else a member of the
class, else what is assumed. -/
def State.reach? (s : State) (sc : Option ScopeId) (cls : Option SymbolId) (name : String) :
    Option SymbolId :=
  (((s.info.symbols.chainOf sc).findSome? fun c => s.info.symbols.lookupLocal? c name).or
    (cls.bind fun c => s.member? c name)).or (s.assumed.lookup name)

theorem bind_reach {name : String} {i id : SymbolId} (found : s.reach? p.scope (p.fn.bind (·.cls)) name = some i)
    (run : bind p name s = .ok (id, s')) : id = i := by
  obtain ⟨_, _, read, run⟩ := bind_ok run
  cases read
  dsimp only at run
  rw [show (((s.info.symbols.lookup? p.scope name).or _).or _) = some i from found] at run
  cases run
  rfl

theorem State.Formed.known (formed : s.Formed file) (sc : ScopeId) :
    ∀ id ∈ (s.info.symbols.scope sc).order, id < s.info.symbols.symbols.size :=
  fun id member => (formed.orders sc id member).1

theorem State.Later.lookups (later : base.Later fits none s) (formed : base.Formed file) {scs : List ScopeId}
    (known : ∀ c ∈ scs, c < base.info.symbols.scopes.size) (name : String) :
    (scs.findSome? fun c => s.info.symbols.lookupLocal? c name) =
      scs.findSome? fun c => base.info.symbols.lookupLocal? c name := by
  induction scs with
  | nil => rfl
  | cons c scs ih =>
    rw [List.findSome?_cons, List.findSome?_cons,
      later.table.lookupLocal? (known c List.mem_cons_self) (formed.known c),
      ih fun c member => known c (List.mem_cons_of_mem _ member)]

theorem State.Later.searchMember (later : base.Later fits none s) (formed : base.Formed file) (name : String)
    (n : Nat) (seen : List SymbolId) {c : SymbolId} (lt : c < base.info.symbols.symbols.size)
    (kind : (base.info.symbols.symbol c).kind = .cls) :
    s.searchMember name n seen c = base.searchMember name n seen c := by
  induction n generalizing seen c with
  | zero => rfl
  | succ n ih =>
    have kept := later.table.symbol c lt
    have type := kept.type (by rw [kind]; decide)
    unfold State.searchMember
    dsimp only
    rw [kept.members, type, later.hierarchy, later.classes]
    cases opened : (base.info.symbols.symbol c).members with
    | none => rfl
    | some m =>
      dsimp only
      rw [later.table.lookupLocal? (formed.members c m opened) (formed.known m)]
      refine if_congr Iff.rfl rfl ?_
      cases base.info.symbols.lookupLocal? m name with
      | some found => rfl
      | none =>
      -- the bases are classes of the file, so the searches in them agree
      refine congrArg (fun f => List.foldl f (c :: seen, none) _) ?_
      funext search b
      obtain ⟨seen, found⟩ := search
      cases found with
      | some f => rfl
      | none =>
        cases named : base.classes.lookup b.name with
        | none => rfl
        | some d =>
          obtain ⟨before, after, same, -⟩ := List.lookup_eq_some_iff.mp named
          have isClass := formed.called (b.name, d) (by simp [same])
          exact ih seen isClass.known isClass.kind

theorem State.Later.member? (later : base.Later fits none s) (formed : base.Formed file) {c : SymbolId}
    (lt : c < base.info.symbols.symbols.size) (kind : (base.info.symbols.symbol c).kind = .cls)
    (name : String) : s.member? c name = base.member? c name := by
  rw [State.member?, State.member?, later.classes, later.searchMember formed name _ _ lt kind]

/-! ### Scopes within functions -/

/-- A function of the file can stand there: in a known scope or in none and, if it is a method, in a known class. -/
structure State.Hosts (file : File) (base : State) (outer : Option ScopeId) (cls : Option SymbolId) : Prop where
  formed : base.Formed file
  known : ∀ sc, outer = some sc → sc < base.info.symbols.scopes.size
  cls : ∀ c, cls = some c → c < base.info.symbols.symbols.size ∧ (base.info.symbols.symbol c).kind = .cls

/-- The scopes from `sc` on lead to those from `outer` on, and the ones before these have declared
nothing but the names `bound`. -/
def State.Around (base s : State) (outer : Option ScopeId) (bound : List String)
    (sc : Option ScopeId) : Prop :=
  ∃ locals, s.info.symbols.chainOf sc = locals ++ base.info.symbols.chainOf outer ∧
    ∀ c ∈ locals, c < s.info.symbols.scopes.size ∧ ∀ id ∈ (s.info.symbols.scope c).order,
      id < s.info.symbols.symbols.size ∧ (s.info.symbols.symbol id).name ∈ bound

/-- The scope is a new one in a function, where the names `bound` are declared. -/
structure State.Within (base : State) (fits : Span → SymbolId → Prop) (outer : Option ScopeId)
    (bound : List String) (sc : ScopeId) (s : State) : Prop where
  later : base.Later fits none s
  known : sc < s.info.symbols.scopes.size
  fresh : base.info.symbols.scopes.size ≤ sc
  around : base.Around s outer bound sc

/-- The scope declares more symbols, with names among `names`, and no other known scope does. -/
structure State.Adds (fits : Span → SymbolId → Prop) (sc : ScopeId) (names : List String) (s s' : State) :
    Prop where
  later : s.Later fits (some sc) s'
  order : ∀ id ∈ (s'.info.symbols.scope sc).order, id ∈ (s.info.symbols.scope sc).order ∨
    id < s'.info.symbols.symbols.size ∧ (s'.info.symbols.symbol id).name ∈ names

variable {outer : Option ScopeId} {sc : ScopeId} {cls : Option SymbolId} {bound names : List String}

theorem State.Later.adds (later : s.Later fits none s') (lt : sc < s.info.symbols.scopes.size) :
    s.Adds fits sc names s' :=
  ⟨later.any, fun _ member => .inl (by rwa [later.table.order sc lt (by simp)] at member)⟩

theorem State.Adds.after (h : s'.Adds fits sc names s'') (later : s.Later fits none s')
    (lt : sc < s.info.symbols.scopes.size) : s.Adds fits sc names s'' := by
  refine ⟨later.any.trans h.later, fun id member => (h.order id member).imp_left fun old => ?_⟩
  rwa [later.table.order sc lt (by simp)] at old

theorem State.Adds.before (h : s.Adds fits sc names s') (later : s'.Later fits none s'')
    (lt : sc < s.info.symbols.scopes.size) : s.Adds fits sc names s'' := by
  refine ⟨h.later.trans later.any, fun id member => ?_⟩
  rw [later.table.order sc (Nat.lt_of_lt_of_le lt h.later.table.scopes) (by simp)] at member
  refine (h.order id member).imp_right fun ⟨known, named⟩ => ?_
  rw [(later.table.symbol id known).name]
  exact ⟨Nat.lt_of_lt_of_le known later.table.symbols, named⟩

theorem State.Within.adds (h : base.Within fits outer bound sc s) (adds : s.Adds fits sc names s') :
    base.Within fits outer (names ++ bound) sc s' where
  later := h.later.inner adds.later h.fresh
  known := Nat.lt_of_lt_of_le h.known adds.later.table.scopes
  fresh := h.fresh
  around := by
    obtain ⟨locals, chain, known⟩ := h.around
    refine ⟨locals, (adds.later.table.chain sc h.known).trans chain, fun c member => ?_⟩
    obtain ⟨lt, declared⟩ := known c member
    refine ⟨Nat.lt_of_lt_of_le lt adds.later.table.scopes, fun id inside => ?_⟩
    have kept : id ∈ (s.info.symbols.scope c).order →
        id < s'.info.symbols.symbols.size ∧ (s'.info.symbols.symbol id).name ∈ names ++ bound := by
      intro old
      obtain ⟨small, named⟩ := declared id old
      rw [(adds.later.table.symbol id small).name]
      exact ⟨Nat.lt_of_lt_of_le small adds.later.table.symbols, List.mem_append_right _ named⟩
    by_cases same : c = sc
    · subst same
      rcases adds.order id inside with old | ⟨small, named⟩
      · exact kept old
      · exact ⟨small, List.mem_append_left _ named⟩
    · rw [adds.later.table.order c lt fun own => same (Option.some.inj own).symm] at inside
      exact kept inside

theorem State.Within.lasts (h : base.Within fits outer bound sc s) (later : s.Later fits none s') :
    base.Within fits outer bound sc s' := by
  have adds : s.Adds fits sc [] s' := later.adds h.known
  exact h.adds adds

theorem State.Hosts.around (hosts : base.Hosts file outer cls) (later : base.Later fits none s) :
    base.Around s outer [] outer := by
  refine ⟨[], ?_, by simp⟩
  cases stands : outer with
  | none => rfl
  | some o => exact later.table.chain o (hosts.known o stands)

theorem newScope_within {kind : ScopeKind} {owner : Option SymbolId} {parent : Option ScopeId}
    (later : base.Later fits none s) (around : base.Around s outer bound parent)
    (run : newScope parent kind owner s = .ok (sc, s')) :
    s.Later fits none s' ∧ s.info.symbols.scopes.size ≤ sc ∧ base.Within fits outer bound sc s' := by
  cases (newScope_run parent kind owner s).symm.trans run
  have first : s.Later fits none (s.withSymbols (s.info.symbols.child parent kind owner).1) :=
    .withSymbols (s.info.symbols.child_later parent kind owner)
  refine ⟨first, Nat.le_refl _, later.trans first, ?_, later.table.scopes, ?_⟩
  · simp [State.withSymbols, SymbolTable.child]
  · obtain ⟨locals, chain, known⟩ := around
    refine ⟨s.info.symbols.scopes.size :: locals, ?_, fun c member => ?_⟩
    · change ((s.info.symbols.child parent kind owner).1.scope _).chain = _
      rw [SymbolTable.scope_child, if_pos rfl, List.cons_append, ← chain]
    · rcases List.mem_cons.mp member with rfl | member
      · refine ⟨by simp [State.withSymbols, SymbolTable.child], fun id inside => ?_⟩
        simp [State.withSymbols, SymbolTable.scope_child] at inside
      · obtain ⟨lt, declared⟩ := known c member
        refine ⟨Nat.lt_of_lt_of_le lt first.table.scopes, fun id inside => declared id ?_⟩
        rwa [first.table.order c lt (by simp)] at inside

theorem State.Within.reach? (hosts : base.Hosts file outer cls) (h : base.Within fits outer bound sc s)
    {name : String} (free : name ∉ bound) : s.reach? sc cls name = base.reach? outer cls name := by
  have looked : ((s.info.symbols.chainOf sc).findSome? fun c => s.info.symbols.lookupLocal? c name) =
      (base.info.symbols.chainOf outer).findSome? fun c => base.info.symbols.lookupLocal? c name := by
    obtain ⟨locals, chain, known⟩ := h.around
    have missing : (locals.findSome? fun c => s.info.symbols.lookupLocal? c name) = none := by
      refine List.findSome?_eq_none_iff.mpr fun c member => ?_
      cases found : s.info.symbols.lookupLocal? c name with
      | none => rfl
      | some id =>
        obtain ⟨declared, named⟩ := SymbolTable.lookupLocal?_mem found
        exact absurd (named ▸ ((known c member).2 id declared).2) free
    rw [chain, List.findSome?_append, missing, Option.none_or]
    refine h.later.lookups hosts.formed (fun c member => ?_) name
    cases stands : outer with
    | none =>
      rw [stands] at member
      cases member
    | some o =>
      rw [stands] at member
      exact (hosts.formed.chains o (hosts.known o stands)).known c member
  rw [State.reach?, State.reach?, looked, h.later.assumed]
  cases same : cls with
  | none => rfl
  | some c =>
    obtain ⟨lt, kind⟩ := hosts.cls c same
    rw [Option.bind_some, Option.bind_some, h.later.member? hosts.formed lt kind]

/-- Where a function is being resolved. -/
def within (base : State) (fits : Span → SymbolId → Prop) (outer : Option ScopeId)
    (bound : List String) (sc : ScopeId) : Stage base fits where
  holds s := base.Within fits outer bound sc s
  later h := h.later
  lasts h later := h.lasts later

/-- Of every mention it fits to refer to what the name means where the function stands, if the function
does not declare the name. -/
def Allows (base : State) (fits : Span → SymbolId → Prop) (outer : Option ScopeId)
    (cls : Option SymbolId) (ms : List Mention) : Prop :=
  ∀ m ∈ ms, ∀ id, (m.name ∉ m.bound → ∀ i, base.reach? outer cls m.name = some i → id = i) → fits m.span id

theorem Allows.left {ms ms' : List Mention} (h : Allows base fits outer cls (ms ++ ms')) :
    Allows base fits outer cls ms := fun m member => h m (List.mem_append_left _ member)

theorem Allows.right {ms ms' : List Mention} (h : Allows base fits outer cls (ms ++ ms')) :
    Allows base fits outer cls ms' := fun m member => h m (List.mem_append_right _ member)

/-- A place in a function of the class. -/
structure Place.Inside (base : State) (fits : Span → SymbolId → Prop) (cls : Option SymbolId) (p : Place) :
    Prop where
  demand : ∀ (g : Stage base fits) (span : Span), Follows g (p.demand span)
  cls : p.fn.bind (·.cls) = cls

theorem Place.Inside.scoped (h : p.Inside base fits cls) (sc : ScopeId) :
    Place.Inside base fits cls { p with scope := sc } := ⟨h.demand, h.cls⟩

theorem Allows.suits (allows : Allows base fits outer cls (mentionsIn bound ns))
    (hosts : base.Hosts file outer cls) (place : p.Inside base fits cls) :
    Suits (within base fits outer bound p.scope) p ns := by
  refine fun span name member {s id s'} holds run => allows ⟨span, name, bound⟩ (mem_mentionsIn member) id ?_
  intro free i found
  refine bind_reach (p := p) ?_ run
  rw [place.cls, State.Within.reach? hosts holds free]
  exact found

/-! ### Statements -/

theorem declare_adds {pos : Pos} {u : Unit} (lt : id < s.info.symbols.symbols.size)
    (run : declare sc id pos s = .ok (u, s')) :
    s.Adds fits sc [(s.info.symbols.symbol id).name] s' := by
  obtain ⟨t, declared, rfl⟩ := declare_run run
  obtain ⟨entered, -⟩ := SymbolTable.declare_ok declared
  obtain rfl : t = s.info.symbols.entered sc id := entered
  have later : s.Later fits (some sc) (s.withSymbols (s.info.symbols.entered sc id)) :=
    .withSymbols (s.info.symbols.entered_later sc id)
  refine ⟨later, fun i member => ?_⟩
  rw [State.withSymbols, SymbolTable.scope_entered] at member
  split at member
  · refine (List.mem_append.mp member).imp_right fun new => ?_
    obtain rfl := List.mem_singleton.mp new
    rw [(later.table.symbol i lt).name]
    exact ⟨Nat.lt_of_lt_of_le lt later.table.symbols, List.mem_singleton_self _⟩
  · exact .inl member

section

variable (hosts : base.Hosts file outer cls) (place : p.Inside base fits cls) {u : Unit}
include hosts place

theorem localVar_adds {d : VarDecl} (within : base.Within fits outer bound p.scope s)
    (allows : Allows base fits outer cls (mentionsIn bound (nodesIn Expr.nodes d.value)))
    (run : localVar p d s = .ok (u, s')) : s.Adds fits p.scope [d.name] s' := by
  let g : Stage base fits := Resolution.within base fits outer bound p.scope
  obtain ⟨type, s₁, ran, run⟩ := bind_ok run
  have first : s.Later fits none s₁ := (g.composes.writtenType d).run within ran
  have within₁ := within.lasts first
  obtain ⟨id, s₂, made, run⟩ := bind_ok run
  obtain ⟨lt, same⟩ := alloc_ok made
  have second : s₁.Later fits none s₂ := (g.composes.alloc _).run within₁ made
  obtain ⟨_, s₃, ran, run⟩ := bind_ok run
  have kind : (s₂.info.symbols.symbol id).kind = .var := congrArg Symbol.kind same
  have third : s₂.Later fits none s₃ :=
    varValue_later place.demand (allows.suits hosts place) (within₁.lasts second) lt kind ran
  obtain ⟨_, s₄, declared, noted⟩ := bind_ok run
  have name : (s₃.info.symbols.symbol id).name = d.name :=
    (third.table.symbol id lt).name.trans (congrArg Symbol.name same)
  have lt₃ := Nat.lt_of_lt_of_le lt third.table.symbols
  have adds : s₃.Adds fits p.scope [d.name] s₄ := name ▸ declare_adds lt₃ declared
  have kind₄ : (s₄.info.symbols.symbol id).kind = .var :=
    (adds.later.table.symbol id lt₃).kind.trans ((third.table.symbol id lt).kind.trans kind)
  have last : s₄.Later fits none s' := by
    obtain rfl := modify_ok noted
    refine { State.Later.refl fits none s₄ with vars := fun span i found => ?_ }
    rcases getElem?_insert_cases found with ⟨rfl, rfl⟩ | old
    · exact .inr ⟨Nat.lt_of_lt_of_le lt₃ adds.later.table.symbols, kind₄⟩
    · exact .inl old
  have before := (first.trans second).trans third
  have known := Nat.lt_of_lt_of_le within.known before.table.scopes
  exact (adds.before last known).after before within.known

omit hosts place in
theorem loopVar_within {span : Span} {name : String} {t : Ty} {q : Place}
    (within : base.Within fits outer bound p.scope s) (run : loopVar p span name t s = .ok (q, s')) :
    ∃ sc, q = { p with scope := sc } ∧ s.Later fits none s' ∧
      base.Within fits outer (name :: bound) sc s' := by
  obtain ⟨sc, s₁, made, run⟩ := bind_ok run
  obtain ⟨first, new, within₁⟩ := newScope_within within.later within.around made
  let g : Stage base fits := Resolution.within base fits outer bound sc
  obtain ⟨id, s₂, made, run⟩ := bind_ok run
  obtain ⟨lt, same⟩ := alloc_ok made
  have second : s₁.Later fits none s₂ := (g.composes.alloc _).run within₁ made
  obtain ⟨_, s₃, declared, run⟩ := bind_ok run
  have adds : s₂.Adds fits sc [name] s₃ := by
    have adds : s₂.Adds fits sc [(s₂.info.symbols.symbol id).name] s₃ := declare_adds lt declared
    rwa [same] at adds
  obtain ⟨_, s₄, noted, run⟩ := bind_ok run
  have last : s₃.Later fits none s₄ := by
    obtain rfl := modify_ok noted
    exact .of_core rfl
  cases run
  refine ⟨sc, rfl, ((first.trans second).inner adds.later new).trans last, ?_⟩
  exact ((within₁.lasts second).adds adds).lasts last

omit hosts in
theorem returned_later {value : Option Expr} {implicit : Bool} {g : Stage base fits}
    (suits : Suits g p (nodesIn Expr.nodes value)) (holds : g.holds s)
    (run : returned p value implicit s = .ok (u, s')) : s.Later fits none s' :=
  (g.composes.returned (place.demand g) (fun _ => .modify fun s _ => .withReturns s _) implicit
    (suits.follows (place.demand g))).run holds run

end

mutual

theorem stmt_adds {p : Place} {bound : List String} {s s' : State} {u : Unit}
    (hosts : base.Hosts file outer cls) (place : p.Inside base fits cls)
    (within : base.Within fits outer bound p.scope s) : (st : Stmt) →
    Allows base fits outer cls (st.mentions bound) → stmt p st s = .ok (u, s') →
    s.Adds fits p.scope st.opens s'
  | .block b, allows, run => (block_later hosts place within b allows run).adds within.known
  | .expr _ x, allows, run => by
    obtain ⟨_, run⟩ := discard_ok run
    exact ((expr_follows (place.demand _) x (allows.suits hosts place)).run within run).adds within.known
  | .decl _ d, allows, run => localVar_adds hosts place within allows run
  | .branch _ _ cond yes none, allows, run => by
    obtain ⟨_, s₁, ran, run⟩ := bind_ok run
    obtain ⟨_, ran⟩ := discard_ok ran
    have first : s.Later fits none s₁ :=
      (expr_follows (place.demand _) cond (allows.left.suits hosts place)).run within ran
    obtain ⟨_, s₂, ran, run⟩ := bind_ok run
    have second := block_later hosts place (within.lasts first) yes allows.right ran
    cases run
    exact (first.trans second).adds within.known
  | .branch _ _ cond yes (some no), allows, run => by
    obtain ⟨_, s₁, ran, run⟩ := bind_ok run
    obtain ⟨_, ran⟩ := discard_ok ran
    have first : s.Later fits none s₁ :=
      (expr_follows (place.demand _) cond (allows.left.suits hosts place)).run within ran
    obtain ⟨_, s₂, ran, run⟩ := bind_ok run
    have second := block_later hosts place (within.lasts first) yes allows.right.left ran
    have third := stmt_adds hosts place ((within.lasts first).lasts second) no allows.right.right run
    exact third.after (first.trans second) within.known
  | .loop _ _ none body, allows, run => (block_later hosts place within body allows.right run).adds within.known
  | .loop _ _ (some cond) body, allows, run => by
    obtain ⟨_, s₁, ran, run⟩ := bind_ok run
    obtain ⟨_, ran⟩ := discard_ok ran
    have first : s.Later fits none s₁ :=
      (expr_follows (place.demand _) cond (allows.left.suits hosts place)).run within ran
    have second := block_later hosts place (within.lasts first) body allows.right run
    exact (first.trans second).adds within.known
  | .count span _ name low high step body, allows, run => by
    have suits := allows.left.suits hosts place
    obtain ⟨l, s₁, ran, run⟩ := bind_ok run
    have first : s.Later fits none s₁ := (expr_follows (place.demand _) low (suits.part fun n h =>
      List.mem_append_left _ (List.mem_append_left _ h))).run within ran
    obtain ⟨h, s₂, ran, run⟩ := bind_ok run
    have within₁ := within.lasts first
    have second : s₁.Later fits none s₂ := (expr_follows (place.demand _) high (suits.part fun n h =>
      List.mem_append_left _ (List.mem_append_right _ h))).run within₁ ran
    have within₂ := within₁.lasts second
    have rest : ∀ {s₃ : State}, s.Later fits none s₃ → (do
        let t ← countType p l h
        let inner ← loopVar p span name t
        block inner body) s₃ = .ok (u, s') → s.Adds fits p.scope [] s' := by
      intro s₃ before run
      obtain ⟨t, s₄, ran, run⟩ := bind_ok run
      have counted : s₃.Later fits none s₄ :=
        ((Resolution.within base fits outer bound p.scope).composes.countType l h).run (within.lasts before) ran
      have before := before.trans counted
      obtain ⟨q, s₅, opened, run⟩ := bind_ok run
      obtain ⟨sc, rfl, looped, inner⟩ := loopVar_within (within.lasts before) opened
      have last := block_later hosts (place.scoped sc) inner body allows.right run
      exact ((before.trans looped).trans last).adds within.known
    cases step with
    | none => exact rest (first.trans second) run
    | some x =>
      obtain ⟨_, s₃, ran, run⟩ := bind_ok run
      obtain ⟨_, ran⟩ := discard_ok ran
      have third : s₂.Later fits none s₃ := (expr_follows (place.demand _) x (suits.part fun n h =>
        List.mem_append_right _ h)).run within₂ ran
      exact rest ((first.trans second).trans third) run
  | .each span name storage items body, allows, run => by
    obtain ⟨t, s₁, ran, run⟩ := bind_ok run
    have first : s.Later fits none s₁ := ((Stage.composes _).iterated (place.demand _)
      ((allows.left.suits hosts place).follows (place.demand _))).run within ran
    obtain ⟨q, s₂, opened, run⟩ := bind_ok run
    obtain ⟨sc, rfl, second, within₂⟩ := loopVar_within (within.lasts first) opened
    have third := block_later hosts (place.scoped sc) within₂ body allows.right run
    exact ((first.trans second).trans third).adds within.known
  | .ret _ value implicit _ _, allows, run =>
    (returned_later place (allows.suits hosts place) within run).adds within.known
  | .brk _ _, _, run | .cont _ _, _, run | .inject _ _, _, run => by
    cases run
    exact (State.Later.refl fits none s).adds within.known

theorem block_later {p : Place} {bound : List String} {s s' : State} {u : Unit}
    (hosts : base.Hosts file outer cls) (place : p.Inside base fits cls)
    (within : base.Within fits outer bound p.scope s) : (b : Block) →
    Allows base fits outer cls (b.mentions bound) → block p b s = .ok (u, s') → s.Later fits none s'
  | .mk _ ss _, allows, run => by
    obtain ⟨sc, s₁, made, run⟩ := bind_ok run
    obtain ⟨first, new, within₁⟩ := newScope_within within.later within.around made
    exact first.inner (stmts_later hosts (place.scoped sc) within₁ ss allows run) new

theorem stmts_later {p : Place} {bound : List String} {s s' : State} {u : Unit}
    (hosts : base.Hosts file outer cls) (place : p.Inside base fits cls)
    (within : base.Within fits outer bound p.scope s) : (ss : List Stmt) →
    Allows base fits outer cls (Stmt.mentionsOf bound ss) → stmts p ss s = .ok (u, s') →
    s.Later fits (some p.scope) s'
  | [], _, run => by
    cases run
    exact .refl _ _ _
  | st :: ss, allows, run => by
    obtain ⟨_, s₁, ran, run⟩ := bind_ok run
    have first := stmt_adds hosts place within st allows.left ran
    exact first.later.trans (stmts_later hosts place (within.adds first) ss allows.right run)

end

/-! ### Functions -/

/-- The parameter's symbol is known, and has its name. -/
def State.Names (base : State) (q : Param) : Prop :=
  ∀ id, base.info.params[q.span]? = some id →
    id < base.info.symbols.symbols.size ∧ (base.info.symbols.symbol id).name = q.name

section

variable (hosts : base.Hosts file outer cls) (place : p.Inside base fits cls) {u : Unit}
include hosts place

theorem bodyParam_adds {q : Param} (named : base.Names q) (within : base.Within fits outer bound p.scope s)
    (allows : Allows base fits outer cls (mentionsIn (q.name :: bound) (nodesIn Expr.nodes q.value)))
    (run : bodyParam p q s = .ok (u, s')) : s.Adds fits p.scope [q.name] s' := by
  obtain ⟨_, _, read, run⟩ := bind_ok run
  cases read
  rw [within.later.params] at run
  cases found : base.info.params[q.span]? with
  | none =>
    rw [found] at run
    cases run
    exact (State.Later.refl fits none s).adds within.known
  | some id =>
    rw [found] at run
    obtain ⟨lt, name⟩ := named id found
    have name : (s.info.symbols.symbol id).name = q.name := (within.later.table.symbol id lt).name.trans name
    obtain ⟨_, s₁, declared, run⟩ := bind_ok run
    have adds : s.Adds fits p.scope [q.name] s₁ :=
      name ▸ declare_adds (Nat.lt_of_lt_of_le lt within.later.table.symbols) declared
    refine adds.before ?_ within.known
    cases given : q.value with
    | none =>
      rw [given] at run
      cases run
      exact .refl _ _ _
    | some v =>
      rw [given] at run allows
      let g : Stage base fits := Resolution.within base fits outer (q.name :: bound) p.scope
      have value : Follows g (do
          let t ← expr p v
          requireAssignable ((← symbolOf id).type.getD (.unknown "")) t v.pos) :=
        g.composes.bind (expr_follows (place.demand g) v (allows.suits hosts place)) fun t =>
          g.composes.bind (g.composes.symbolOf id) fun _ => g.composes.requireAssignable _ _ _
      exact value.run (within.adds adds) run

theorem bodyParams_add {qs : List Param} (named : ∀ q ∈ qs, base.Names q)
    (within : base.Within fits outer bound p.scope s)
    (allows : Allows base fits outer cls (Param.mentionsOf bound qs))
    (run : qs.forM (bodyParam p) s = .ok (u, s')) : s.Later fits (some p.scope) s' ∧
      base.Within fits outer ((qs.map Param.name).reverse ++ bound) p.scope s' := by
  induction qs generalizing s bound with
  | nil =>
    cases run
    exact ⟨.refl _ _ _, within⟩
  | cons q qs ih =>
    obtain ⟨_, s₁, ran, run⟩ := bind_ok run
    have first := bodyParam_adds hosts place (named q List.mem_cons_self) within allows.left ran
    obtain ⟨rest, inside⟩ := ih (fun r member => named r (List.mem_cons_of_mem _ member)) (within.adds first)
      allows.right run
    refine ⟨first.later.trans rest, ?_⟩
    rwa [List.map_cons, List.reverse_cons, List.append_assoc]

theorem funcBody_later {st : FuncState} (named : ∀ q ∈ st.decl.params, base.Names q)
    (within : base.Within fits outer [] p.scope s) (allows : Allows base fits outer cls st.decl.mentions)
    (run : funcBody p st s = .ok (u, s')) : s.Later fits (some p.scope) s' := by
  obtain ⟨_, s₁, ran, run⟩ := bind_ok run
  obtain ⟨first, within₁⟩ := bodyParams_add hosts place named within allows.left ran
  rw [List.append_nil] at within₁
  have result : Follows (around base fits) (do
      unless (← get).info.results.contains st.decl.info.span do
        let t ← inferResult p.table st (← get).returns
        modifyInfo fun i => { i with results := i.results.insert st.decl.info.span t }) := by
    let c := (around base fits).composes
    refine c.bind c.get fun s => ?_
    split
    · exact c.pure _
    · exact c.bind c.get fun _ => c.bind (c.inferResult _ _ _) fun t =>
        .modify fun s _ => .withResult s _ t
  have allows := allows.right
  unfold FuncDecl.bodyMentions at allows
  cases given : st.decl.body with
  | none =>
    rw [given] at run
    exact first.trans (result.run within₁.later run).any
  | some b =>
    rw [given] at run allows
    obtain ⟨_, s₂, ran, run⟩ := bind_ok run
    have second := block_later hosts place within₁ b allows ran
    exact (first.trans second.any).trans (result.run (within₁.later.trans second) run).any

end

/-- What is known of a state that the first two passes have left: parameters have symbols of their names,
and what fits is what the names in functions mean there. -/
structure State.Settles (file : File) (fits : Span → SymbolId → Prop) (base : State) : Prop where
  formed : base.Formed file
  params : ∀ f ∈ file.funcs, ∀ q ∈ f.params, base.Names q
  allows : ∀ f ∈ file.funcs, ∀ sc cls, base.stand? f.info.span = some (f, sc, cls) →
    Allows base fits sc cls f.mentions

theorem enterFunc_later (settles : base.Settles file fits) {demand : Span → Resolver Unit} {st : FuncState}
    {u : Unit} (demands : ∀ (g : Stage base fits) span, Follows g (demand span))
    (known : base.stand? st.decl.info.span = some st.stand) (listed : st.decl ∈ file.funcs)
    (hosts : base.Hosts file st.scope st.cls) (later : base.Later fits none s)
    (run : enterFunc table demand st s = .ok (u, s')) : s.Later fits none s' := by
  obtain ⟨_, _, read, run⟩ := bind_ok run
  cases read
  obtain ⟨_, s₁, returned, run⟩ := bind_ok run
  obtain rfl := modify_ok returned
  have first : s.Later fits none { s with returns := [] } := .withReturns s []
  have later₁ := later.trans first
  obtain ⟨sc, s₂, made, run⟩ := bind_ok run
  obtain ⟨second, new, within⟩ := newScope_within later₁ (hosts.around later₁) made
  obtain ⟨_, s₃, ran, run⟩ := bind_ok run
  have place : Place.Inside base fits st.cls { table, scope := sc, fn := some st, demand } := ⟨demands, rfl⟩
  have third := funcBody_later hosts place (settles.params _ listed) within
    (settles.allows _ listed _ _ known) ran
  obtain rfl := modify_ok run
  exact ((first.trans second).inner third new).trans (.withReturns s₃ _)

theorem State.Later.withPhase (s : State) (span : Span) (phase : Phase) :
    s.Later fits none (s.withPhase span phase) :=
  { State.Later.refl fits none s with stand := fun _ => State.stand?_modify fun _ => rfl }

theorem resolveFunc_follows (settles : base.Settles file fits) (n : Nat) (g : Stage base fits) (span : Span) :
    Follows g (resolveFunc table n span) := by
  induction n generalizing g span with
  | zero => exact .pure
  | succ n ih =>
    refine ⟨fun {s u s'} holds run => ?_⟩
    rcases resolveFunc_ok run with ⟨rfl, -⟩ | ⟨st, s₁, found, -, entered, rfl⟩
    · exact .refl _ _ _
    · have later := g.later holds
      have known : base.stand? span = some st.stand := by
        rw [← later.stand, State.stand?, found]
        rfl
      obtain ⟨st', found', same⟩ := Option.map_eq_some_iff.mp known
      obtain ⟨listed, own, inside⟩ := settles.formed.funcs span st' found'
      have classes := settles.formed.methods span st' found'
      obtain ⟨decl, scope, cls⟩ : st'.decl = st.decl ∧ st'.scope = st.scope ∧ st'.cls = st.cls := by
        simpa [FuncState.stand] using same
      rw [decl] at listed own
      rw [scope] at inside
      rw [cls] at classes
      subst own
      have first : s.Later fits none (s.withPhase st.decl.info.span .active) := .withPhase _ _ _
      have known' : ∀ sc, st.scope = some sc → sc < base.info.symbols.scopes.size := by
        intro sc same
        rwa [same] at inside
      have second := enterFunc_later settles ih known listed ⟨settles.formed, known', classes⟩
        (later.trans first) entered
      exact (first.trans second).trans (.withPhase _ _ _)

/-! ### The third pass -/

theorem State.Later.var (later : base.Later fits none s) (formed : base.Formed file) {span : Span}
    (found : s.info.vars[span]? = some id) :
    id < s.info.symbols.symbols.size ∧ (s.info.symbols.symbol id).kind = .var := by
  rcases later.vars span id found with old | new
  · obtain ⟨lt, kind⟩ := formed.vars span id old
    exact ⟨Nat.lt_of_lt_of_le lt later.table.symbols, (later.table.symbol id lt).kind.trans kind⟩
  · exact new

theorem State.Later.namespaceScope (later : base.Later fits none s) (formed : base.Formed file)
    (inside : sc < base.info.symbols.scopes.size) {info : DeclInfo} {name : String} {pos : Pos}
    {ds : List Decl} {m : ScopeId} (stands : Decl.Stands base sc (.scope info name ds))
    (run : namespaceScope sc name pos ds s = .ok (m, s')) :
    s' = s ∧ m < base.info.symbols.scopes.size ∧ Decl.StandAll base m ds := by
  obtain ⟨id, inner, found, kind, -⟩ := id stands
  have lt := formed.known sc id (SymbolTable.lookupLocal?_mem found).1
  have kept := later.table.symbol id lt
  have found' : s.info.symbols.lookupLocal? sc name = some id :=
    (later.table.lookupLocal? inside (formed.known sc) name).trans found
  rw [namespaceScope_joins found' (kept.kind.trans kind), kept.members] at run
  have again : s' = s ∧ Resolution.namespaceScope sc name pos ds base = .ok (m, base) := by
    rw [namespaceScope_joins found kind]
    cases members : (base.info.symbols.symbol id).members with
    | some m' =>
      rw [members] at run
      cases run
      exact ⟨rfl, rfl⟩
    | none =>
      rw [members] at run
      dsimp only at run ⊢
      split at run
      · cases run
      · next idle =>
        cases run
        exact ⟨rfl, if_neg idle⟩
  exact ⟨again.1, (namespaceScope_stands formed inside stands again.2).2⟩

def Free (fits : Span → SymbolId → Prop) (ns : List Node) : Prop :=
  ∀ span name, .expr (.ident span name) ∈ ns → ∀ id, fits span id

theorem Free.part {ns ns' : List Node} (free : Free fits ns) (fewer : ∀ n ∈ ns', n ∈ ns) : Free fits ns' :=
  fun span name member => free span name (fewer _ member)

theorem Free.suits {g : Stage base fits} (free : Free fits ns) : Suits g p ns :=
  fun span name member _ id _ _ _ => free span name member id

theorem itemBody_follows (formed : base.Formed file) {p : Place}
    (demand : ∀ (g : Stage base fits) span, Follows g (p.demand span)) {i : Item} (free : Free fits i.values) :
    Follows (around base fits) (itemBody p i) := by
  let g := around base fits
  cases i with
  | var d =>
    refine ⟨fun {s _ s'} later run => ?_⟩
    obtain ⟨_, _, read, run⟩ := bind_ok run
    cases read
    cases found : s.info.vars[d.info.span]? with
    | none =>
      rw [found] at run
      cases run
      exact .refl _ _ _
    | some id =>
      rw [found] at run
      obtain ⟨lt, kind⟩ := State.Later.var later formed found
      have value : Free fits (nodesIn Expr.nodes d.value) := free.part fun _ h => List.mem_append_right _ h
      exact varValue_later demand value.suits (g := g) later lt kind run
  | func f => exact demand g f.info.span
  | enum d =>
    refine Course.Runs.get.bind fun s => .forM fun m member => ?_
    split
    · next v given =>
      have value : Free fits v.nodes := free.part fun n h => List.mem_flatMap.mpr ⟨m, member, by rwa [given]⟩
      have inner : ∀ q : Place, q.demand = p.demand → Follows g (discard (expr q v)) := fun q same =>
        (expr_follows (same ▸ demand g) v value.suits).discard
      exact inner _ rfl
    · exact .pure
  | inject info text => exact .pure

mutual

theorem body_follows (formed : base.Formed file) {p : Place}
    (demand : ∀ (g : Stage base fits) span, Follows g (p.demand span))
    (inside : p.scope < base.info.symbols.scopes.size) : (d : Decl) → Decl.Stands base p.scope d →
    Free fits d.values → Follows (around base fits) (body p d)
  | .item _, _, free => itemBody_follows formed demand free
  | .scope _ _ ds, stands, free => by
    refine ⟨fun {s _ s'} later run => ?_⟩
    obtain ⟨m, s₁, found, rest⟩ := bind_ok run
    obtain ⟨rfl, lt, stand⟩ := State.Later.namespaceScope later formed inside stands found
    exact (bodies_follow formed (p := { p with scope := m }) demand lt ds stand free).run later rest
  | .cls info _ _ items, _, free => by
    refine Course.Runs.get.bind fun s => ?_
    split
    · refine ((around base fits).composes.symbolOf _).bind fun sym => .forM fun i member => ?_
      refine itemBody_follows (p := { p with scope := sym.members.getD p.scope }) formed demand ?_
      exact free.part fun n h => List.mem_flatMap.mpr ⟨i, member, h⟩
    · exact .pure
  | .abstraction _ _ _ _, _, _ | .refurbish _ _ _, _, _ => .forM fun f _ => demand _ f.info.span
  | .includes _ _ _ _, _, _ | .assume _ _ _, _, _ | .attributeDef _ _ _ _, _, _ => .pure

theorem bodies_follow (formed : base.Formed file) {p : Place}
    (demand : ∀ (g : Stage base fits) span, Follows g (p.demand span))
    (inside : p.scope < base.info.symbols.scopes.size) : (ds : List Decl) →
    Decl.StandAll base p.scope ds → Free fits (Decl.valuesOf ds) → Follows (around base fits) (bodies p ds)
  | [], _, _ => .pure
  | d :: ds, stands, free =>
    (body_follows formed demand inside d stands.1 (free.part fun _ h => List.mem_append_left _ h)).bind fun _ =>
      bodies_follow formed demand inside ds stands.2 (free.part fun _ h => List.mem_append_right _ h)

end

/-! ### What names in functions refer to -/

/-- If the place is that of a name in a function that does not declare it, the symbol is what the name
means where the function stands. -/
def File.Refers (file : File) (base : State) (span : Span) (id : SymbolId) : Prop :=
  ∀ f ∈ file.funcs, ∀ sc cls, base.stand? f.info.span = some (f, sc, cls) → ∀ m ∈ f.mentions, m.span = span →
    m.name ∉ m.bound → ∀ i, base.reach? sc cls m.name = some i → id = i

section

variable {name src : String} {s₁ s₂ : State} (read : File.read table name src = .ok file)
  (passed : Passed table file file.decls s₁ s₂ s)
include read passed

theorem Passed.later : s₂.Later (File.Refers file s₂) none s := by
  have zoned := File.read_zoned read
  have free : Free (File.Refers file s₂) (Decl.valuesOf file.decls) := by
    intro span x member id f listed sc cls _ m mention same
    have late : Key.expr m.span ∈ keysOf f.late :=
      List.mem_filterMap.mpr ⟨_, FuncDecl.mention_late mention, rfl⟩
    refine absurd (List.mem_filterMap.mpr ⟨_, member, ?_⟩) (zoned.outside f listed _ late)
    rw [same]
    rfl
  have settles : s₂.Settles file (File.Refers file s₂) := by
    refine ⟨passed.formed, fun f listed q member id found => passed.toPrepared.param read listed member found, ?_⟩
    intro f listed sc cls stand m member id only g listed' sc' cls' stand' m' member' same free i found
    obtain ⟨rfl, rfl⟩ := zoned.mention listed listed' member member' same
    cases stand.symm.trans stand'
    exact only free i found
  have stands := Decl.StandAll.mono passed.first.formed (Regime.grows passed.second) file.decls
    passed.first.formed.root passed.stand
  exact (bodies_follow passed.formed (fun g span => resolveFunc_follows settles _ g span) passed.formed.root
    file.decls stands free).run (.refl _ _ _) passed.ran

theorem Passed.mention {f : FuncDecl} (listed : f ∈ file.funcs) {sc : Option ScopeId} {cls : Option SymbolId}
    (stand : s₂.stand? f.info.span = some (f, sc, cls)) {m : Mention} (member : m ∈ f.mentions)
    (free : m.name ∉ m.bound) {i : SymbolId} (found : s₂.reach? sc cls m.name = some i) :
    s.info.uses[m.span]? = some i := by
  have node : m.node ∈ file.nodes :=
    File.late_subset (File.late_of_func listed _ (FuncDecl.mention_late member))
  obtain ⟨-, used⟩ : _ ∧ m.span ∈ s.info.uses := passed.noted _ node
  obtain ⟨id, used⟩ := mem_iff_found.mp used
  rcases (passed.later read).uses m.span id used with before | refers
  · exact absurd (mem_iff_found.mpr ⟨_, before⟩) (passed.fresh.uses m.span)
  · rw [used, refers f listed sc cls stand m member rfl free i found]

end

end Resolution

end TastyLang
