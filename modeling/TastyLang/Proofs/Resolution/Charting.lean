import TastyLang.Proofs.Resolution.Charts
import TastyLang.Proofs.Resolution.Standing

/-!
# Charting a file

The first pass over a list of declarations leaves a state that knows just what is on their chart
(`declareDecls_chart`). Each declaration adds its own landmarks, whatever was declared before.
-/

namespace TastyLang

def Decl.chart (π : Path) (d : Decl) : Chart := ⟨d.landmarks π, d.assumptions, d.classesAt π⟩

def Decl.chartOf (π : Path) (ds : List Decl) : Chart :=
  ⟨Decl.landmarksOf π ds, Decl.assumptionsOf ds, Decl.classesAtOf π ds⟩

def File.chart (file : File) : Chart := Decl.chartOf [] file.decls

namespace SymbolTable

variable {t t' : SymbolTable} {sc c : ScopeId} {id i : SymbolId}

theorem Enters.bare (rooted : t.Rooted) (enters : t.Enters t' sc id) :
    t'.Bare c i ↔ t.Bare c i ∨ c = sc ∧ i = id ∧ (t'.symbol id).kind = .scope ∧
      (t'.symbol id).members = none := by
  have old : i ∈ (t.scope c).order → t'.symbol i = t.symbol i := fun member =>
    enters.symbols i (rooted.known c i member)
  unfold Bare
  rw [enters.orders]
  by_cases same : c = sc
  · rw [if_pos same, List.mem_append, List.mem_singleton]
    constructor
    · rintro ⟨member | rfl, kind, members⟩
      · rw [old member] at kind members
        exact .inl ⟨member, kind, members⟩
      · exact .inr ⟨same, rfl, kind, members⟩
    · rintro (⟨member, kind, members⟩ | ⟨-, rfl, kind, members⟩)
      · rw [← old member] at kind members
        exact ⟨.inl member, kind, members⟩
      · exact ⟨.inr rfl, kind, members⟩
  · rw [if_neg same]
    constructor
    · rintro ⟨member, kind, members⟩
      rw [old member] at kind members
      exact .inl ⟨member, kind, members⟩
    · rintro (⟨member, kind, members⟩ | ⟨here, -⟩)
      · rw [← old member] at kind members
        exact ⟨member, kind, members⟩
      · exact absurd here same

end SymbolTable

namespace Resolution

variable {s s' : State} {c : Chart} {sc : ScopeId} {id : SymbolId} {π : Path} {name : String}

/-- The state knows just what is on the chart. -/
structure State.Charted (s : State) (c : Chart) : Prop where
  table : s.info.symbols.Charted c.landmarks
  assumed : List.Forall₂ (fun x a => x.1 = a.1 ∧ x.2 < s.info.symbols.symbols.size ∧
    (a.2.meant a.1).Fits (s.info.symbols.symbol x.2)) s.assumed c.assumed.reverse
  classes : List.Forall₂ (fun x y => x.1 = y.1 ∧ s.info.symbols.IsClass x.2.2 ∧
    ∃ sc, s.info.symbols.At sc y.2.1 ∧ s.info.symbols.lookupLocal? sc y.2.2 = some x.2.2)
    s.info.classes c.classes

theorem State.charted_initial : State.Charted {} ⟨[], [], []⟩ := by
  have orders : ∀ sc, (({} : SymbolTable).scope sc).order = [] := by
    intro sc
    by_cases root : sc = 0
    · subst root
      rfl
    · rw [SymbolTable.scope_of_le (Nat.one_le_iff_ne_zero.mpr root)]
      rfl
  have empty : ∀ sc id, id ∉ (({} : SymbolTable).scope sc).order := by simp [orders]
  refine ⟨⟨⟨by decide, rfl, rfl, fun sc id member => absurd member (empty sc id),
    fun sc id member => absurd member (empty sc id)⟩,
    fun sc id member => absurd member (empty sc id), ?_, ?_⟩, .nil, .nil⟩
  all_goals exact fun _ member => by cases member

variable {ls : List Landmark}

theorem State.Charted.grow (charted : s.Charted c) {s' : State}
    (grown : s.info.symbols.Grows s'.info.symbols) (table : s'.info.symbols.Charted ls)
    (assumed : s'.assumed = s.assumed) (classes : s'.info.classes = s.info.classes) :
    s'.Charted ⟨ls, c.assumed, c.classes⟩ := by
  have rooted := charted.table.rooted
  refine ⟨table, ?_, ?_⟩
  · rw [assumed]
    refine charted.assumed.imp fun x a known => ?_
    exact ⟨known.1, Nat.lt_of_lt_of_le known.2.1 grown.symbols,
      known.2.2.mono (grown.symbol _ known.2.1)⟩
  · rw [classes]
    refine charted.classes.imp fun x y known => ?_
    obtain ⟨span, cls, sc, here, found⟩ := known
    exact ⟨span, cls.mono grown, sc, here.mono rooted grown,
      grown.lookupLocal? (here.known rooted) (rooted.known sc) found⟩

/-- No abstract binding stands for anything yet. -/
def State.Unbound (s : State) : Prop :=
  ∀ id < s.info.symbols.symbols.size, (s.info.symbols.symbol id).kind = .abstraction →
    (s.info.symbols.symbol id).type = none

/-! ### One name -/

variable {t : SymbolTable} {x : Symbol} {k : ScopeKind} {m : Meant} {pos : Pos}

theorem declare_shares {t t' : SymbolTable} {pos : Pos} (h : t.declare sc id pos = .ok t')
    {p : SymbolId} (found : t.lookupLocal? sc (t.symbol id).name = some p) :
    (t.symbol p).kind = .func ∧ (t.symbol id).kind = .func := by
  simp only [SymbolTable.declare, found] at h
  split at h
  · next shared => simpa [SymbolTable.mayShare] using shared
  · cases h

/-- The table with a new symbol that is declared in a scope. -/
def introduced (t : SymbolTable) (sc : ScopeId) (x : Symbol) : SymbolTable :=
  (t.alloc x).1.entered sc t.symbols.size

theorem symbol_introduced (i : SymbolId) :
    (introduced t sc x).symbol i =
      if i = t.symbols.size then { x with home := some sc } else t.symbol i := by
  have size : t.symbols.size < (t.alloc x).1.symbols.size := by simp [SymbolTable.alloc]
  rw [introduced, SymbolTable.symbol_entered, SymbolTable.symbol_alloc]
  by_cases new : i = t.symbols.size
  · subst new
    simp [size]
  · simp [new]

theorem introduced_enters (inside : sc < t.scopes.size)
    (plain : x.members = none) : t.Enters (introduced t sc x) sc t.symbols.size := by
  refine ⟨(t.alloc_grows x).trans (SymbolTable.entered_grows _ _ _), fun c => ?_, rfl, ?_,
    fun i lt => ?_, fun m members => ?_⟩
  · rw [introduced, SymbolTable.scope_entered]
    by_cases same : c = sc
    · subst same
      simp [SymbolTable.alloc, inside, SymbolTable.scope]
    · simp [SymbolTable.alloc, same, SymbolTable.scope]
  · simp [introduced, SymbolTable.entered, SymbolTable.alloc]
  · rw [symbol_introduced, if_neg (Nat.ne_of_lt lt)]
  · rw [symbol_introduced, if_pos rfl] at members
    rw [plain] at members
    cases members

variable {u : Unit} {s₁ : State}

theorem introduce_run (rooted : s.info.symbols.Rooted) (inside : sc < s.info.symbols.scopes.size)
    (made : alloc x s = .ok (id, s₁)) (declared : declare sc id pos s₁ = .ok (u, s')) :
    id = s.info.symbols.symbols.size ∧ s' = s.withSymbols (introduced s.info.symbols sc x) ∧
      ∀ prev, s.info.symbols.lookupLocal? sc x.name = some prev →
        (s.info.symbols.symbol prev).kind = .func ∧ x.kind = .func := by
  cases (alloc_run x s).symm.trans made
  obtain ⟨t, ok, rfl⟩ := declare_run declared
  obtain ⟨rfl, -⟩ := SymbolTable.declare_ok ok
  refine ⟨rfl, rfl, fun prev found => ?_⟩
  have new := s.info.symbols.symbol_alloc x s.info.symbols.symbols.size
  rw [if_pos rfl] at new
  have lt := rooted.known sc prev (SymbolTable.lookupLocal?_mem found).1
  have later := (s.info.symbols.alloc_grows x).lookupLocal? inside (rooted.known sc) found
  obtain ⟨first, second⟩ := declare_shares ok (p := prev) (by
    change (s.info.symbols.alloc x).1.lookupLocal? sc
      ((s.info.symbols.alloc x).1.symbol s.info.symbols.symbols.size).name = some prev
    rw [new]
    exact later)
  refine ⟨?_, ?_⟩
  · rw [← first]
    exact ((s.info.symbols.alloc_grows x).symbol prev lt).kind.symm
  · rw [← new]
    exact second

theorem Meant.other_fits_func (kind : x.kind = .func) : Meant.other.Fits x := by
  simp [Meant.Fits, kind]

theorem Enters.unbound {t' : SymbolTable} (enters : s.info.symbols.Enters t' sc id)
    (untyped : (t'.symbol id).kind = .abstraction → (t'.symbol id).type = none)
    (unbound : s.Unbound) : (s.withSymbols t').Unbound := by
  intro i lt kind
  change (t'.symbol i).type = none
  have lt : i < s.info.symbols.symbols.size + 1 := Nat.lt_of_lt_of_eq lt enters.size
  rcases Nat.lt_succ_iff_lt_or_eq.mp lt with old | new
  · have same := enters.symbols i old
    have kind : (t'.symbol i).kind = .abstraction := kind
    rw [same] at kind ⊢
    exact unbound i old kind
  · rw [new, ← enters.fresh] at kind ⊢
    exact untyped kind

theorem append_landmarks (c : Chart) (ls : List Landmark) :
    c ++ ⟨ls, [], []⟩ = ⟨c.landmarks ++ ls, c.assumed, c.classes⟩ := by
  change Chart.mk _ (c.assumed ++ []) (c.classes ++ []) = _
  rw [List.append_nil, List.append_nil]

theorem append_assoc (c d e : Chart) : c ++ d ++ e = c ++ (d ++ e) := by
  change Chart.mk _ _ _ = Chart.mk _ _ _
  rw [Chart.mk.injEq]
  exact ⟨List.append_assoc _ _ _, List.append_assoc _ _ _, List.append_assoc _ _ _⟩

/-- A step that adds something to the chart. -/
structure Charting (s s' : State) (c d : Chart) : Prop where
  grown : s.info.symbols.Grows s'.info.symbols
  charted : s'.Charted (c ++ d)
  unbound : s.Unbound → s'.Unbound

theorem Charting.at (charted : s.Charted c) {d : Chart} (step : Charting s s' c d)
    (here : s.info.symbols.At sc π) : s'.info.symbols.At sc π :=
  here.mono charted.table.rooted step.grown

variable {s'' : State}

theorem Charting.trans {d e : Chart} (first : Charting s s' c d)
    (second : Charting s' s'' (c ++ d) e) : Charting s s'' c (d ++ e) :=
  ⟨first.grown.trans second.grown, append_assoc c d e ▸ second.charted,
    second.unbound ∘ first.unbound⟩

theorem Charting.refl (charted : s.Charted c) : Charting s s c ⟨[], [], []⟩ := by
  refine ⟨.refl _, ?_, id⟩
  rw [append_landmarks, List.append_nil]
  exact charted

/-- A step that adds to the chart and makes no namespace without members. -/
structure Filling (s s' : State) (c d : Chart) : Prop extends Charting s s' c d where
  same : ∀ sc id, s'.info.symbols.Bare sc id ↔ s.info.symbols.Bare sc id

theorem Filling.trans {d e : Chart} (first : Filling s s' c d)
    (second : Filling s' s'' (c ++ d) e) : Filling s s'' c (d ++ e) :=
  ⟨first.toCharting.trans second.toCharting,
    fun sc id => (second.same sc id).trans (first.same sc id)⟩

theorem introduce_charts (charted : s.Charted c) (here : s.info.symbols.At sc π)
    (plain : x.members = none) (fits : m.Fits { x with home := some sc })
    (made : alloc x s = .ok (id, s₁)) (declared : declare sc id pos s₁ = .ok (u, s')) :
    Charting s s' c ⟨[⟨π, x.name, m⟩], [], []⟩ := by
  have rooted := charted.table.rooted
  have inside := here.known rooted
  obtain ⟨-, rfl, shared⟩ := introduce_run rooted inside made declared
  -- only symbols with members are abstract bindings
  have other : x.kind ≠ .abstraction := by
    intro kind
    cases m with
    | type t => simp [kind] at fits; exact absurd fits.1 (by simp)
    | binding target => simp [Meant.Fits, plain] at fits
    | other => exact fits.2.2 kind
  have enters := introduced_enters (x := x) inside plain
  have own := @symbol_introduced sc s.info.symbols x s.info.symbols.symbols.size
  rw [if_pos rfl] at own
  have table : (introduced s.info.symbols sc x).Charted (c.landmarks ++ [⟨π, x.name, m⟩]) := by
    apply charted.table.enter enters here
    · rw [own]
    · rw [own]
      exact fits
    · intro prev found
      obtain ⟨first, second⟩ := shared prev found
      exact ⟨fits.other (Meant.other_fits_func second), Meant.other_fits_func first⟩
  refine ⟨enters.grown, ?_, Enters.unbound enters (by rw [own]; exact fun kind => absurd kind other)⟩
  rw [append_landmarks]
  exact charted.grow enters.grown table rfl rfl

theorem introduce_fills (charted : s.Charted c) (here : s.info.symbols.At sc π)
    (plain : x.members = none) (fits : m.Fits { x with home := some sc }) (other : x.kind ≠ .scope)
    (made : alloc x s = .ok (id, s₁)) (declared : declare sc id pos s₁ = .ok (u, s')) :
    Filling s s' c ⟨[⟨π, x.name, m⟩], [], []⟩ := by
  refine ⟨introduce_charts charted here plain fits made declared, ?_⟩
  have rooted := charted.table.rooted
  have inside := here.known rooted
  obtain ⟨-, rfl, -⟩ := introduce_run rooted inside made declared
  intro at' i
  have own := @symbol_introduced sc s.info.symbols x s.info.symbols.symbols.size
  rw [if_pos rfl] at own
  refine ((introduced_enters inside plain).bare rooted).trans (or_iff_left ?_)
  rintro ⟨-, -, kind, -⟩
  rw [own] at kind
  exact other kind

theorem forM_fills {α : Type} (part : α → List Landmark) {f : α → Resolver Unit} {xs : List α}
    (charted : s.Charted c) (here : s.info.symbols.At sc π)
    (each : ∀ x ∈ xs, ∀ {s₁ s₂ : State} {c : Chart}, s₁.Charted c → s₁.info.symbols.At sc π →
      f x s₁ = .ok ((), s₂) → Filling s₁ s₂ c ⟨part x, [], []⟩)
    (run : xs.forM f s = .ok (u, s')) : Filling s s' c ⟨xs.flatMap part, [], []⟩ := by
  induction xs generalizing s c with
  | nil =>
    cases run
    exact ⟨.refl charted, fun _ _ => Iff.rfl⟩
  | cons x xs ih =>
    obtain ⟨_, s₁, first, rest⟩ := bind_ok run
    have step := each x List.mem_cons_self charted here first
    have more := ih step.charted (step.toCharting.at charted here)
      (fun y member => each y (List.mem_cons_of_mem _ member)) rest
    exact step.trans more

/-! ### Symbols with members -/

/-- The table with a new symbol in a scope, and a scope for its members. -/
def opened (t : SymbolTable) (sc : ScopeId) (x : Symbol) (k : ScopeKind) : SymbolTable :=
  ((introduced t sc x).child sc k (some t.symbols.size)).1.modifySymbol t.symbols.size
    fun y => { y with members := some t.scopes.size }

theorem size_introduced (t : SymbolTable) (sc : ScopeId) (x : Symbol) :
    (introduced t sc x).symbols.size = t.symbols.size + 1 ∧
      (introduced t sc x).scopes.size = t.scopes.size := by
  simp [introduced, SymbolTable.entered, SymbolTable.alloc]

theorem symbol_opened (i : SymbolId) :
    (opened t sc x k).symbol i = if i = t.symbols.size then
      { x with home := some sc, members := some t.scopes.size } else t.symbol i := by
  have own := @symbol_introduced sc t x i
  have size := (size_introduced t sc x).1
  have same : ((introduced t sc x).child sc k (some t.symbols.size)).1.symbol i =
    (introduced t sc x).symbol i := rfl
  have sizes : ((introduced t sc x).child sc k (some t.symbols.size)).1.symbols.size =
    t.symbols.size + 1 := size
  rw [opened, SymbolTable.symbol_modifySymbol, same, own, sizes]
  by_cases new : i = t.symbols.size
  · subst new
    simp
  · simp [new]

theorem scope_opened (c : ScopeId) :
    (opened t sc x k).scope c = if c = t.scopes.size then
      ⟨k, some t.symbols.size, t.scopes.size :: ((introduced t sc x).scope sc).chain, []⟩
      else (introduced t sc x).scope c := by
  have child := (introduced t sc x).scope_child sc k (some t.symbols.size) c
  rw [(size_introduced t sc x).2] at child
  exact child

theorem opened_enters (inside : sc < t.scopes.size) (plain : x.members = none)
    (kind : x.kind.isTypeName = true) :
    t.Enters (opened t sc x k) sc t.symbols.size := by
  have first := introduced_enters (x := x) inside plain
  have sizes := size_introduced t sc x
  have own := @symbol_introduced sc t x t.symbols.size
  rw [if_pos rfl] at own
  have grown : t.Grows (opened t sc x k) := by
    have child := (introduced t sc x).child_grows sc k (some t.symbols.size)
    refine (first.grown.trans child).trans ?_
    refine SymbolTable.modifySymbol_grows _ _ ⟨rfl, rfl, rfl, fun m members => ?_, id,
      fun _ _ type => type⟩
    change ((introduced t sc x).symbol t.symbols.size).members = some m at members
    rw [own] at members
    rw [plain] at members
    cases members
  have size : (opened t sc x k).symbols.size = t.symbols.size + 1 := by
    rw [← sizes.1]
    exact Array.size_modify
  have scopes : (opened t sc x k).scopes.size = t.scopes.size + 1 := by
    rw [← sizes.2]
    exact Array.size_push _
  refine ⟨grown, fun c => ?_, rfl, size, fun i lt => ?_, fun m members => ?_⟩
  · rw [scope_opened]
    split
    · next new =>
      subst new
      rw [if_neg (Nat.ne_of_gt inside), SymbolTable.scope_of_le (Nat.le_refl _)]
      rfl
    · exact first.orders c
  · rw [symbol_opened, if_neg (Nat.ne_of_lt lt)]
  · rw [symbol_opened, if_pos rfl] at members
    obtain rfl := Option.some.inj members
    have apart : sc ≠ t.scopes.size := Nat.ne_of_lt inside
    refine ⟨by rw [scopes]; exact Nat.lt_succ_self _, ?_, ?_, ?_⟩
    · rw [scope_opened, if_pos rfl]
    · rw [scope_opened, if_pos rfl, scope_opened, if_neg apart]
    · rw [symbol_opened, if_pos rfl]
      exact kind

theorem declareOwner_run {m : ScopeId} (rooted : s.info.symbols.Rooted)
    (inside : sc < s.info.symbols.scopes.size) (other : x.kind ≠ .func)
    (run : declareOwner sc x k pos s = .ok ((id, m), s')) :
    id = s.info.symbols.symbols.size ∧ m = s.info.symbols.scopes.size ∧
      s' = s.withSymbols (opened s.info.symbols sc x k) ∧
      s.info.symbols.lookupLocal? sc x.name = none := by
  obtain ⟨id', s₁, made, run⟩ := bind_ok run
  obtain ⟨_, s₂, declared, run⟩ := bind_ok run
  obtain ⟨rfl, rfl, shared⟩ := introduce_run rooted inside made declared
  obtain ⟨m', s₃, opened', run⟩ := bind_ok run
  cases (newScope_run sc k _ _).symm.trans opened'
  obtain ⟨_, s₄, filled, run⟩ := bind_ok run
  cases filled
  cases run
  have scopes := (size_introduced s.info.symbols sc x).2
  refine ⟨rfl, scopes, ?_, ?_⟩
  · unfold opened
    rw [← scopes]
    rfl
  · cases found : s.info.symbols.lookupLocal? sc x.name with
    | none => rfl
    | some prev => exact absurd (shared prev found).2 other

/-- The table with a new symbol that has members and a type. -/
def settled (t : SymbolTable) (sc : ScopeId) (x : Symbol) (k : ScopeKind) (u : Ty) : SymbolTable :=
  (opened t sc x k).modifySymbol t.symbols.size fun y => { y with type := some u }

theorem symbol_settled {u : Ty} (inside : sc < t.scopes.size) (plain : x.members = none)
    (kind : x.kind.isTypeName = true) :
    (settled t sc x k u).symbol t.symbols.size =
      { x with home := some sc, members := some t.scopes.size, type := some u } := by
  have known := (opened_enters (k := k) inside plain kind).known
  rw [settled, SymbolTable.symbol_modifySymbol, if_pos ⟨rfl, known⟩, symbol_opened, if_pos rfl]

theorem isClass_settled {full : String} {n : Nat} (inside : sc < t.scopes.size)
    (plain : x.members = none) (kind : x.kind = .cls) :
    (settled t sc x k (.cls full n)).IsClass t.symbols.size := by
  have own := symbol_settled (k := k) (u := .cls full n) inside plain (by rw [kind]; rfl)
  have known := (opened_enters (k := k) inside plain (by rw [kind]; rfl)).known
  refine ⟨?_, ?_, ⟨full, n, ?_⟩, ⟨t.scopes.size, ?_⟩⟩
  · rw [settled, SymbolTable.modifySymbol, Array.size_modify]
    exact known
  · rw [own]
    exact kind
  · rw [own]
  · rw [own]

/-! ### Declarations -/

theorem Charting.quiet (charted : s.Charted c) (symbols : s'.info.symbols = s.info.symbols)
    (assumed : s'.assumed = s.assumed) (classes : s'.info.classes = s.info.classes) :
    Charting s s' c ⟨[], [], []⟩ := by
  have grown : s.info.symbols.Grows s'.info.symbols := symbols ▸ .refl _
  refine ⟨grown, ?_, fun unbound => ?_⟩
  · rw [append_landmarks, List.append_nil]
    exact charted.grow grown (symbols ▸ charted.table) assumed classes
  · unfold State.Unbound
    rwa [symbols]

theorem Filling.quiet (charted : s.Charted c) (symbols : s'.info.symbols = s.info.symbols)
    (assumed : s'.assumed = s.assumed) (classes : s'.info.classes = s.info.classes) :
    Filling s s' c ⟨[], [], []⟩ :=
  ⟨.quiet charted symbols assumed classes, fun _ _ => by rw [symbols]⟩

theorem Filling.then_quiet (first : Filling s s' c ⟨ls, [], []⟩)
    (symbols : s''.info.symbols = s'.info.symbols) (assumed : s''.assumed = s'.assumed)
    (classes : s''.info.classes = s'.info.classes) : Filling s s'' c ⟨ls, [], []⟩ := by
  have whole := first.trans (.quiet first.charted symbols assumed classes)
  change Filling s s'' c ⟨ls ++ [], [], []⟩ at whole
  rwa [List.append_nil] at whole

variable {ds : List Decl}

section

variable (charted : s.Charted c) (here : s.info.symbols.At sc π)

include charted here

theorem declareFunc_fills {f : FuncDecl} (run : declareFunc sc f s = .ok (u, s')) :
    Filling s s' c ⟨f.landmarks π, [], []⟩ := by
  unfold declareFunc at run
  unfold FuncDecl.landmarks
  split at run
  · next special =>
    obtain ⟨_, _, read, run⟩ := bind_ok run
    cases read
    cases run
    rw [if_pos special]
    exact .quiet charted rfl rfl rfl
  · next plain =>
    obtain ⟨id, s₁, made, run⟩ := bind_ok run
    obtain ⟨_, s₂, declared, run⟩ := bind_ok run
    obtain ⟨_, _, read, run⟩ := bind_ok run
    cases read
    have first := introduce_fills (m := .other) charted here rfl (by simp [Meant.Fits]) (by simp)
      made declared
    cases run
    rw [if_neg plain]
    exact first.then_quiet rfl rfl rfl

theorem declareVar_fills {d : VarDecl} (run : declareVar sc d s = .ok (u, s')) :
    Filling s s' c ⟨[⟨π, d.name, .other⟩], [], []⟩ := by
  obtain ⟨id, s₁, made, run⟩ := bind_ok run
  obtain ⟨_, s₂, declared, run⟩ := bind_ok run
  have first := introduce_fills (m := .other) charted here rfl (by simp [Meant.Fits]) (by simp)
    made declared
  cases run
  exact first.then_quiet rfl rfl rfl

/-- A symbol with members whose type was set is a landmark, and its members stand behind it. -/
theorem opened_fills {meant : Meant} {t' : SymbolTable}
    (new : s.info.symbols.lookupLocal? sc x.name = none)
    (enters : s.info.symbols.Enters t' sc s.info.symbols.symbols.size)
    (named : (t'.symbol s.info.symbols.symbols.size).name = x.name)
    (members : (t'.symbol s.info.symbols.symbols.size).members = some s.info.symbols.scopes.size)
    (fits : meant.Fits (t'.symbol s.info.symbols.symbols.size))
    (untyped : (t'.symbol s.info.symbols.symbols.size).kind = .abstraction →
      (t'.symbol s.info.symbols.symbols.size).type = none) :
    Filling s (s.withSymbols t') c ⟨[⟨π, x.name, meant⟩], [], []⟩ ∧
      t'.lookupLocal? sc x.name = some s.info.symbols.symbols.size ∧
      t'.At s.info.symbols.scopes.size (x.name :: π) := by
  have rooted := charted.table.rooted
  have found : t'.lookupLocal? sc x.name = some s.info.symbols.symbols.size := by
    rw [← named] at new ⊢
    exact enters.lookupLocal? rooted new
  refine ⟨⟨⟨enters.grown, ?_, Enters.unbound enters untyped⟩, fun at' i => ?bare⟩, found,
    .inner (here.mono rooted enters.grown) found members⟩
  case bare =>
    refine (enters.bare rooted).trans (or_iff_left ?_)
    rintro ⟨-, -, -, none⟩
    cases members.symm.trans none
  rw [append_landmarks]
  refine charted.grow enters.grown (charted.table.enter enters here named fits ?_) rfl rfl
  intro prev before
  rw [new] at before
  cases before

theorem settled_fills {u : Ty} (plain : x.members = none) (untyped : x.type = none)
    (kind : x.kind.isTypeName = true) (other : x.kind ≠ .abstraction)
    (new : s.info.symbols.lookupLocal? sc x.name = none)
    (fits : ∀ home members, m.Fits { x with home := home, members := members, type := some u }) :
    Filling s (s.withSymbols (settled s.info.symbols sc x k u)) c ⟨[⟨π, x.name, m⟩], [], []⟩ ∧
      (settled s.info.symbols sc x k u).lookupLocal? sc x.name = some s.info.symbols.symbols.size ∧
      (settled s.info.symbols sc x k u).At s.info.symbols.scopes.size (x.name :: π) := by
  have inside := here.known charted.table.rooted
  have enters := opened_enters (k := k) inside plain kind
  have own := symbol_settled (k := k) (u := u) inside plain kind
  have before := @symbol_opened sc s.info.symbols x k
    s.info.symbols.symbols.size
  rw [if_pos rfl] at before
  have enters : s.info.symbols.Enters (settled s.info.symbols sc x k u) sc
      s.info.symbols.symbols.size := enters.settle (by rw [before]; exact untyped) u
  refine opened_fills charted here new enters (by rw [own]) (by rw [own]) ?_ ?_
  · rw [own]
    exact fits _ _
  · rw [own]
    exact fun kind => absurd kind other

theorem qualified_opened (plain : x.members = none) (kind : x.kind.isTypeName = true) :
    (opened s.info.symbols sc x k).qualified s.info.symbols.symbols.size =
      π.dotted x.name := by
  have rooted := charted.table.rooted
  have enters := opened_enters (k := k) (here.known rooted) plain kind
  have own := @symbol_opened sc s.info.symbols x k
    s.info.symbols.symbols.size
  rw [if_pos rfl] at own
  rw [(here.mono rooted enters.grown).qualified (enters.rooted rooted) (by rw [own]), own]

theorem declareEnum_fills {d : EnumDecl} (run : declareEnum sc d s = .ok (u, s')) :
    Filling s s' c ⟨(Item.enum d).landmarks π, [], []⟩ := by
  have rooted := charted.table.rooted
  obtain ⟨⟨id, members⟩, s₁, made, run⟩ := bind_ok run
  obtain ⟨rfl, rfl, rfl, new⟩ := declareOwner_run rooted (here.known rooted) (by simp) made
  obtain ⟨full, _, named, run⟩ := bind_ok run
  cases named
  obtain ⟨_, s₂, typed, run⟩ := bind_ok run
  have full := qualified_opened (k := .cls) charted here
    (rfl : Symbol.members { name := d.name, kind := .enum, origin := .other d.info.span.start } = _)
    rfl
  dsimp only [State.withSymbols] at typed run
  rw [full] at typed run
  cases typed
  obtain ⟨first, -, inside⟩ := settled_fills (m := .type (.enum (π.dotted d.name)))
    (u := .enum (π.dotted d.name)) charted here rfl rfl rfl (by simp) new
    fun _ _ => ⟨.inr rfl, _, rfl, rfl⟩
  have rest := forM_fills (fun m : EnumMember => [⟨d.name :: π, m.name, .other⟩]) first.charted
    inside (fun m _ s₁ s₂ c charted here run => by
      obtain ⟨id, s₃, made, run⟩ := bind_ok run
      exact introduce_fills charted here rfl (by simp [Meant.Fits]) (by simp) made run) run
  have whole := first.trans rest
  rw [append_landmarks] at whole
  simpa [Item.landmarks, List.map_eq_flatMap] using whole

theorem declareItem_fills {i : Item} (run : declareItem sc i s = .ok (u, s')) :
    Filling s s' c ⟨i.landmarks π, [], []⟩ := by
  cases i with
  | var d => exact declareVar_fills charted here run
  | func f => exact declareFunc_fills charted here run
  | enum d => exact declareEnum_fills charted here run
  | inject info text =>
    cases run
    exact ⟨.refl charted, fun _ _ => Iff.rfl⟩

variable {kind : AssumeKind}

omit here in
theorem assumedSymbol_charts (run : assumedSymbol name kind pos s = .ok (x, s')) :
    Charting s s' c ⟨[], [], []⟩ ∧ x.name = name ∧ x.members = none ∧ x.kind ≠ .abstraction ∧
      ∀ home, (kind.meant name).Fits { x with home := home } := by
  unfold assumedSymbol at run
  cases kind with
  | cls =>
    obtain ⟨_, s₁, made, run⟩ := bind_ok run
    obtain ⟨number, s₂, numbered, made⟩ := bind_ok made
    cases numbered
    cases made
    cases run
    exact ⟨.quiet charted rfl rfl rfl, rfl, rfl, by simp, fun _ => ⟨.inl rfl, _, rfl, rfl⟩⟩
  | scope | func | var =>
    cases run
    refine ⟨.refl charted, rfl, rfl, by simp, fun _ => ?_⟩
    simp [AssumeKind.meant, Meant.Fits]

omit here in
theorem assume_charts (fits : (kind.meant name).Fits x) (other : x.kind ≠ .abstraction) :
    Charting s { s.withSymbols (s.info.symbols.alloc x).1 with
      assumed := (name, s.info.symbols.symbols.size) :: s.assumed } c ⟨[], [(name, kind)], []⟩ := by
  have grown := s.info.symbols.alloc_grows x
  have table : (s.info.symbols.alloc x).1.Charted c.landmarks := by
    refine charted.table.keep grown (fun _ => rfl) fun i lt => ?_
    rw [SymbolTable.symbol_alloc, if_neg (Nat.ne_of_lt lt)]
  have later : (s.withSymbols (s.info.symbols.alloc x).1).Charted _ :=
    charted.grow grown table rfl rfl
  have size : (s.info.symbols.alloc x).1.symbols.size = s.info.symbols.symbols.size + 1 :=
    Array.size_push _
  have own := s.info.symbols.symbol_alloc x
  refine ⟨grown, ⟨?_, ?_, ?_⟩, fun unbound i lt kind => ?_⟩
  · change (s.info.symbols.alloc x).1.Charted (c.landmarks ++ [])
    rw [List.append_nil]
    exact table
  · change List.Forall₂ _ _ (c.assumed ++ [(name, kind)]).reverse
    rw [List.reverse_append]
    refine .cons ⟨rfl, size ▸ Nat.lt_succ_self _, ?_⟩ later.assumed
    change (kind.meant name).Fits ((s.info.symbols.alloc x).1.symbol _)
    rw [own, if_pos rfl]
    exact fits
  · change List.Forall₂ _ _ (c.classes ++ [])
    rw [List.append_nil]
    exact later.classes
  · change ((s.info.symbols.alloc x).1.symbol i).type = none
    have kind : ((s.info.symbols.alloc x).1.symbol i).kind = .abstraction := kind
    have lt : i < s.info.symbols.symbols.size + 1 := Nat.lt_of_lt_of_eq lt size
    rw [own] at kind ⊢
    split at kind
    · exact absurd kind other
    · next old =>
      rw [if_neg old]
      exact unbound i (Nat.lt_of_le_of_ne (Nat.le_of_lt_succ lt) old) kind

variable {info : DeclInfo}

theorem declareAssumed_charts (run : declareAssumed sc name kind pos s = .ok (u, s')) :
    Charting s s' c ((Decl.assume info name kind).chart π) := by
  obtain ⟨x, s₁, made, run⟩ := bind_ok run
  obtain ⟨first, named, plain, other, fits⟩ := assumedSymbol_charts charted made
  have charted₁ : s₁.Charted c := by
    have charted₁ := first.charted
    rwa [append_landmarks, List.append_nil] at charted₁
  obtain ⟨id, s₂, alloced, rest⟩ := bind_ok run
  have second : Charting s₁ s' c ((Decl.assume info name kind).chart π) := by
    unfold Decl.chart Decl.landmarks Decl.assumptions
    split at rest
    · next dotted =>
      cases (alloc_run x s₁).symm.trans alloced
      cases rest
      rw [if_pos dotted, if_pos dotted]
      exact assume_charts charted₁ (fits x.home) other
    · next simple =>
      rw [if_neg simple, if_neg simple]
      subst named
      exact introduce_charts charted₁ (first.at charted here) plain (fits _) alloced rest
  exact ⟨first.grown.trans second.grown, second.charted, second.unbound ∘ first.unbound⟩

/-- A namespace is a landmark. Its declarations stand behind it, or in the scope around it if they
need no scope and the namespace has none. -/
theorem namespaceScope_fills {m : ScopeId} (run : namespaceScope sc name pos ds s = .ok (m, s')) :
    Filling s s' c ⟨[⟨π, name, .other⟩], [], []⟩ ∧
      (s'.info.symbols.At m (name :: π) ∨ s'.info.symbols.At m π ∧ ds.any needsScope = false ∧
        ∃ id, s'.info.symbols.lookupLocal? sc name = some id ∧ s'.info.symbols.Bare sc id) := by
  have again : ∀ {id : SymbolId}, s.info.symbols.lookupLocal? sc name = some id →
      (s.info.symbols.symbol id).kind = .scope → Filling s s c ⟨[⟨π, name, .other⟩], [], []⟩ := by
    intro id found kind
    refine ⟨⟨.refl _, ?_, fun unbound => unbound⟩, fun _ _ => Iff.rfl⟩
    rw [append_landmarks]
    refine { charted with table := charted.table.again here found ?_ }
    simp [Meant.Fits, kind]
  obtain ⟨_, _, read, run⟩ := bind_ok run
  cases read
  dsimp only at run
  obtain ⟨step, same, run⟩ := exists_step run
  split at same
  · next known =>
    obtain ⟨id, found, symbol⟩ := Option.map_eq_some_iff.mp known
    subst same
    cases run
    exact ⟨again found (by rw [symbol]), .inl (.inner here found (by rw [symbol]))⟩
  · next known =>
    obtain ⟨id, found, symbol⟩ := Option.map_eq_some_iff.mp known
    subst same
    split at run
    · cases run
    · next idle =>
      cases run
      refine ⟨again found (by rw [symbol]), .inr ⟨here, Bool.not_eq_true _ ▸ idle, id, found, ?_⟩⟩
      exact ⟨(SymbolTable.lookupLocal?_mem found).1, by rw [symbol], by rw [symbol]⟩
  · subst same
    have rooted := charted.table.rooted
    obtain ⟨⟨id, members⟩, s₁, made, run⟩ := bind_ok run
    obtain ⟨rfl, rfl, rfl, new⟩ := declareOwner_run rooted (here.known rooted) (by simp) made
    obtain ⟨full, _, named, run⟩ := bind_ok run
    cases named
    obtain ⟨_, s₂, typed, run⟩ := bind_ok run
    cases typed
    cases run
    obtain ⟨first, -, inside⟩ := settled_fills (m := .other) charted here rfl rfl rfl (by simp) new
      fun _ _ => by simp [Meant.Fits]
    exact ⟨first, .inl inside⟩

theorem Filling.noteClass {span : Span} (step : Filling s s₁ c ⟨ls, [], []⟩)
    (found : s₁.info.symbols.lookupLocal? sc name = some id) (cls : s₁.info.symbols.IsClass id)
    (symbols : s'.info.symbols = s₁.info.symbols) (assumed : s'.assumed = s₁.assumed)
    (classes : s'.info.classes = s₁.info.classes ++ [(span, name, id)]) :
    Filling s s' c ⟨ls, [], [(span, π, name)]⟩ := by
  have before := step.charted
  refine ⟨⟨symbols ▸ step.grown, ⟨symbols ▸ before.table, ?_, ?_⟩, fun unbound => ?_⟩,
    symbols ▸ step.same⟩
  · rw [symbols, assumed]
    exact before.assumed
  · rw [symbols, classes]
    refine List.rel_append ?_ (.cons ⟨rfl, cls, sc, step.toCharting.at charted here, found⟩ .nil)
    have listed : List.Forall₂ _ s₁.info.classes (c.classes ++ []) := before.classes
    rwa [List.append_nil] at listed
  · unfold State.Unbound
    rw [symbols]
    exact step.unbound unbound

theorem declareClass_fills {bases : List TypeExpr} {items : List Item}
    (run : declareDecl sc (.cls info name bases items) s = .ok (u, s')) :
    Filling s s' c ((Decl.cls info name bases items).chart π) := by
  have rooted := charted.table.rooted
  obtain ⟨⟨id, members⟩, s₁, made, run⟩ := bind_ok run
  obtain ⟨rfl, rfl, rfl, new⟩ := declareOwner_run rooted (here.known rooted) (by simp) made
  obtain ⟨full, _, named, run⟩ := bind_ok run
  cases named
  obtain ⟨number, _, numbered, run⟩ := bind_ok run
  cases numbered
  obtain ⟨_, s₂, typed, run⟩ := bind_ok run
  have full := qualified_opened (k := .cls) charted here
    (rfl : Symbol.members { name, kind := .cls, origin := .other info.span.start } = _) rfl
  dsimp only [State.withSymbols] at typed run
  rw [full] at typed run
  cases typed
  obtain ⟨_, s₃, noted, run⟩ := bind_ok run
  cases noted
  obtain ⟨_, s₄, listed, run⟩ := bind_ok run
  obtain ⟨first, found, inside⟩ := settled_fills (m := .type (.cls (π.dotted name) 0))
    (u := .cls (π.dotted name) _) charted here rfl rfl rfl (by simp) new
    fun _ _ => ⟨.inl rfl, _, rfl, rfl⟩
  have known : Filling s s₄ c
      ⟨[⟨π, name, .type (.cls (π.dotted name) 0)⟩], [], [(info.span, π, name)]⟩ := by
    cases listed
    exact Filling.noteClass charted here first found
      (isClass_settled (here.known rooted) rfl rfl) rfl rfl rfl
  have inside : s₄.info.symbols.At s.info.symbols.scopes.size (name :: π) := by
    cases listed
    exact inside
  have rest := forM_fills (Item.landmarks (name :: π)) known.charted inside
    (fun _ _ _ _ _ charted here run => declareItem_fills charted here run) run
  exact known.trans rest

theorem declareAbstraction_fills {target : TypeExpr} {fs : List FuncDecl}
    (run : declareDecl sc (.abstraction info name target fs) s = .ok (u, s')) :
    Filling s s' c ((Decl.abstraction info name target fs).chart π) := by
  have rooted := charted.table.rooted
  obtain ⟨⟨id, members⟩, s₁, made, run⟩ := bind_ok run
  obtain ⟨rfl, rfl, rfl, new⟩ := declareOwner_run rooted (here.known rooted) (by simp) made
  obtain ⟨_, s₂, functions, run⟩ := bind_ok run
  have enters := opened_enters (k := .cls) (here.known rooted)
    (rfl : Symbol.members
      { name, kind := .abstraction, origin := .other info.span.start } = _) rfl
  have own := @symbol_opened sc s.info.symbols
    { name, kind := .abstraction, origin := .other info.span.start } .cls
    s.info.symbols.symbols.size
  rw [if_pos rfl] at own
  obtain ⟨first, -, inside⟩ := opened_fills charted here new enters (by rw [own]) (by rw [own])
    (show (Meant.binding target).Fits _ by rw [own]; exact ⟨rfl, rfl⟩)
    (by rw [own]; exact fun _ => rfl)
  have rest := forM_fills (FuncDecl.landmarks (name :: π)) first.charted inside
    (fun _ _ _ _ _ charted here run => declareFunc_fills charted here run) functions
  cases run
  exact (first.trans rest).then_quiet rfl rfl rfl

theorem declareAttributeDef_fills {params : List String} {directives : List AttributeUse}
    (run : declareDecl sc (.attributeDef info name params directives) s = .ok (u, s')) :
    Filling s s' c ((Decl.attributeDef info name params directives).chart π) := by
  obtain ⟨id, s₁, made, run⟩ := bind_ok run
  exact introduce_fills charted here rfl (by simp [Meant.Fits]) (by simp) made run

end

theorem Decl.landmarksOf_idle (idle : ds.any needsScope = false) (π : Path) :
    Decl.landmarksOf π ds = [] ∧ Decl.classesAtOf π ds = [] := by
  induction ds with
  | nil => exact ⟨rfl, rfl⟩
  | cons d ds ih =>
    simp only [List.any_cons, Bool.or_eq_false_iff] at idle
    obtain ⟨landmarks, classes⟩ := ih idle.2
    rw [Decl.landmarksOf, Decl.classesAtOf, landmarks, classes, List.append_nil, List.append_nil]
    cases d with
    | includes info => exact ⟨rfl, rfl⟩
    | refurbish info target fs => exact ⟨rfl, rfl⟩
    | item i =>
      cases i with
      | inject info text => exact ⟨rfl, rfl⟩
      | _ => exact absurd idle.1 (by simp [needsScope])
    | assume info name kind =>
      have dotted : name.toList.contains '.' = true := by simpa [needsScope] using idle.1
      rw [Decl.landmarks, if_pos dotted]
      exact ⟨rfl, rfl⟩
    | _ => exact absurd idle.1 (by simp [needsScope])

theorem Decl.chartOf_idle (idle : ds.any needsScope = false) (π π' : Path) :
    Decl.chartOf π ds = Decl.chartOf π' ds := by
  have empty := Decl.landmarksOf_idle idle
  unfold Decl.chartOf
  rw [(empty π).1, (empty π).2, (empty π').1, (empty π').2]

mutual

theorem declareDecl_charts {u : Unit} {s s' : State} {c : Chart} {sc : ScopeId} {π : Path}
    (charted : s.Charted c) (here : s.info.symbols.At sc π) : (d : Decl) →
    declareDecl sc d s = .ok (u, s') → Charting s s' c (d.chart π)
  | .item i, run => by
    unfold Decl.chart
    rw [Decl.landmarks]
    exact (declareItem_fills charted here run).toCharting
  | .assume info name kind, run => declareAssumed_charts charted here run
  | .scope info name ds, run => by
    obtain ⟨m, s₁, found, run⟩ := bind_ok run
    obtain ⟨first, inside⟩ := namespaceScope_fills charted here found
    have rest : Charting s₁ s' (c ++ ⟨[⟨π, name, .other⟩], [], []⟩)
        (Decl.chartOf (name :: π) ds) := by
      rcases inside with inside | ⟨outside, idle, -⟩
      · exact declareDecls_charts first.charted inside ds run
      · rw [Decl.chartOf_idle idle _ π]
        exact declareDecls_charts first.charted outside ds run
    exact first.toCharting.trans rest
  | .cls _ _ _ _, run => (declareClass_fills charted here run).toCharting
  | .abstraction _ _ _ _, run => (declareAbstraction_fills charted here run).toCharting
  | .attributeDef _ _ _ _, run => (declareAttributeDef_fills charted here run).toCharting
  | .includes _ _ _ _, run | .refurbish _ _ _, run => by
    cases run
    exact .refl charted

theorem declareDecls_charts {u : Unit} {s s' : State} {c : Chart} {sc : ScopeId} {π : Path}
    (charted : s.Charted c) (here : s.info.symbols.At sc π) : (ds : List Decl) →
    declareDecls sc ds s = .ok (u, s') → Charting s s' c (Decl.chartOf π ds)
  | [], run => by
    cases run
    exact .refl charted
  | d :: ds, run => by
    obtain ⟨_, s₁, first, run⟩ := bind_ok run
    have step := declareDecl_charts charted here d first
    exact step.trans (declareDecls_charts step.charted (step.at charted here) ds run)

end

end Resolution

end TastyLang
