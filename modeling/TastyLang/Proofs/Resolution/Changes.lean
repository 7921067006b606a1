import TastyLang.Proofs.Reading.Places
import TastyLang.Proofs.Resolution.Sound
import TastyLang.Proofs.Scope.Growth
import TastyLang.Syntax.Nodes

/-!
# How resolution changes its state

Whatever resolution does to its state is one of a few changes (`Change`), and a run is a sequence of
them (`State.Run`). What all changes keep is said here once: nothing that is known is forgotten
(`State.Grows`), and the state stays well-formed (`State.Formed`), as long as every change is legal.
-/

namespace TastyLang

/-! ### The names of a file -/

/-- The names that a node declares, also those of its parameters or enumerators. -/
def Node.binds : Node → List String
  | .var d => [d.name]
  | .func f => f.name :: f.params.map Param.name
  | .enum d => d.name :: d.members.map EnumMember.name
  | .decl d => [d.name]
  | .stmt (.count _ _ name _ _ _ _) | .stmt (.each _ name _ _ _) => [name]
  | _ => []

/-- Some node of the file declares the name. -/
def File.Binds (file : File) (name : String) : Prop := ∃ n ∈ file.nodes, name ∈ n.binds

/-- The names that a node declares for variables, parameters and loops. -/
def Node.locals : Node → List String
  | .var d => [d.name]
  | .func f => f.params.map Param.name
  | .stmt (.count _ _ name _ _ _ _) | .stmt (.each _ name _ _ _) => [name]
  | _ => []

/-- Some variable, parameter or loop of the file has the name. -/
def File.BindsLocally (file : File) (name : String) : Prop := ∃ n ∈ file.nodes, name ∈ n.locals

variable {file : File}

theorem File.BindsLocally.binds {name : String} (h : file.BindsLocally name) :
    file.Binds name := by
  obtain ⟨n, inside, named⟩ := h
  refine ⟨n, inside, ?_⟩
  unfold Node.locals at named
  split at named
  · exact named
  · exact List.mem_cons_of_mem _ named
  · exact named
  · exact named
  · cases named

mutual

/-- The names that a declaration, or one inside of it, assumes. -/
def Decl.assumes : Decl → List String
  | .assume _ name _ => [name]
  | .scope _ _ ds => Decl.assumesOf ds
  | .item _ | .includes _ _ _ _ | .cls _ _ _ _ | .abstraction _ _ _ _ | .refurbish _ _ _
  | .attributeDef _ _ _ _ => []

def Decl.assumesOf : List Decl → List String
  | [] => []
  | d :: ds => d.assumes ++ Decl.assumesOf ds

end

theorem Decl.assumesOf_eq (ds : List Decl) : Decl.assumesOf ds = ds.flatMap Decl.assumes := by
  induction ds with
  | nil => rfl
  | cons d ds ih => rw [Decl.assumesOf, ih, List.flatMap_cons]

def File.Assumes (file : File) (name : String) : Prop :=
  '.' ∈ name.toList ∧ name ∈ Decl.assumesOf file.decls

mutual

theorem Decl.assumes_binds {name : String} : (d : Decl) → name ∈ d.assumes →
    ∃ n ∈ d.nodes, name ∈ n.binds
  | .assume info other kind, h => by
    refine ⟨.decl (.assume info other kind), by simp [Decl.nodes], h⟩
  | .scope _ _ ds, h => by
    obtain ⟨n, inside, binds⟩ := Decl.assumesOf_binds ds h
    rw [Decl.nodes]
    exact ⟨n, List.mem_cons_of_mem _ inside, binds⟩
  | .item _, h | .includes _ _ _ _, h | .cls _ _ _ _, h | .abstraction _ _ _ _, h
  | .refurbish _ _ _, h | .attributeDef _ _ _ _, h => by cases h

theorem Decl.assumesOf_binds {name : String} : (ds : List Decl) → name ∈ Decl.assumesOf ds →
    ∃ n ∈ Decl.nodesOf ds, name ∈ n.binds
  | d :: ds, h => by
    rw [Decl.nodesOf]
    rcases List.mem_append.mp h with h | h
    · obtain ⟨n, inside, binds⟩ := Decl.assumes_binds d h
      exact ⟨n, List.mem_append_left _ inside, binds⟩
    · obtain ⟨n, inside, binds⟩ := Decl.assumesOf_binds ds h
      exact ⟨n, List.mem_append_right _ inside, binds⟩

end

theorem File.Assumes.binds {name : String} (h : file.Assumes name) :
    file.Binds name := by
  obtain ⟨n, inside, binds⟩ := Decl.assumesOf_binds file.decls h.2
  exact ⟨n, List.mem_cons_of_mem _ inside, binds⟩

/-- A block that opens a namespace under an assumed name adds functions to a type. A block that joins
an assumed namespace has no scope, so the bodies of such functions may see no name of the file. -/
def File.Detaches (file : File) : Prop :=
  ∃ assumed block name ds, .decl (.assume assumed name .scope) ∈ file.nodes ∧
    .decl (.scope block name ds) ∈ file.nodes ∧ ∃ info target fs, .refurbish info target fs ∈ ds

/-- Something of the file can stand in a scope that is known, or in none if a block of the file may
have none. -/
def File.Encloses (file : File) (t : SymbolTable) : Option ScopeId → Prop
  | some sc => sc < t.scopes.size
  | none => file.Detaches

theorem File.Encloses.mono {t t' : SymbolTable} {home : Option ScopeId} (h : file.Encloses t home)
    (more : t.scopes.size ≤ t'.scopes.size) : file.Encloses t' home := by
  cases home with
  | some sc => exact Nat.lt_of_lt_of_le h more
  | none => exact h

namespace Resolution

/-! ### Changes -/

inductive Change where
  | alloc (x : Symbol)
  | declare (sc : ScopeId) (id : SymbolId)
  | child (parent : Option ScopeId) (kind : ScopeKind) (owner : Option SymbolId)
  | members (id : SymbolId) (m : ScopeId)
  | type (id : SymbolId) (t : Ty)
  | newClass (bases : List Ty)
  | addBase (number : Nat) (base : Ty)
  | className (full : String) (id : SymbolId)
  | classAt (span : Span) (name : String) (id : SymbolId)
  | capabilities (cs : List (String × Capabilities))
  | extension (e : Extension)
  | extended (e : Extension)
  | func (span : Span) (st : FuncState)
  | assume (name : String) (id : SymbolId)
  | refurbish (text name : String) (e : Extension)
  | returns (ts : List Ty)
  | phase (span : Span) (p : Phase)
  | var (span : Span) (id : SymbolId)
  | param (span : Span) (id : SymbolId)
  | loopVar (span : Span) (id : SymbolId)
  | result (span : Span) (t : Ty)
  | written (span : Span) (t : Ty)
  | expr (span : Span) (t : Ty)
  | typeName (span : Span)
  | use (span : Span) (id : SymbolId)
  | access (span : Span) (a : Access)
  | call (span : Span) (c : ExtensionCall)
  | this (span : Span)

/-- The state after a change. -/
def Change.apply (s : State) : Change → State
  | alloc x => s.withSymbols (s.info.symbols.alloc x).1
  | declare sc id => s.withSymbols (s.info.symbols.entered sc id)
  | child parent kind owner => s.withSymbols (s.info.symbols.child parent kind owner).1
  | members id m =>
    s.withSymbols (s.info.symbols.modifySymbol id fun x => { x with members := some m })
  | type id t => s.withSymbols (s.info.symbols.modifySymbol id fun x => { x with type := some t })
  | newClass bases =>
    { s with info := { s.info with hierarchy := ⟨s.info.hierarchy.bases ++ [bases]⟩ } }
  | addBase number base =>
    { s with info := { s.info with
      hierarchy := ⟨s.info.hierarchy.bases.modify number (· ++ [base])⟩ } }
  | className full id => { s with classes := (full, id) :: s.classes }
  | classAt span name id =>
    { s with info := { s.info with classes := s.info.classes ++ [(span, name, id)] } }
  | capabilities cs => { s with info := { s.info with capabilities := cs } }
  | extension e => { s with info := { s.info with extensions := s.info.extensions ++ [e] } }
  | extended e =>
    { s with funcs := s.funcs.modify e.decl fun st => { st with ext := some e } }
  | func span st => { s with funcs := s.funcs.insert span st }
  | assume name id => { s with assumed := (name, id) :: s.assumed }
  | refurbish text name e => { s with refurbished := (text, name, e) :: s.refurbished }
  | returns ts => { s with returns := ts }
  | phase span p => { s with funcs := s.funcs.modify span fun st => { st with phase := p } }
  | var span id => { s with info := { s.info with vars := s.info.vars.insert span id } }
  | param span id => { s with info := { s.info with params := s.info.params.insert span id } }
  | loopVar span id =>
    { s with info := { s.info with loopVars := s.info.loopVars.insert span id } }
  | result span t => { s with info := { s.info with results := s.info.results.insert span t } }
  | written span t =>
    { s with info := { s.info with typeExprs := s.info.typeExprs.insert span t } }
  | expr span t => { s with info := { s.info with types := s.info.types.insert span t } }
  | typeName span =>
    { s with info := { s.info with typeNames := s.info.typeNames.insert span () } }
  | use span id => { s with info := { s.info with uses := s.info.uses.insert span id } }
  | access span a => { s with info := { s.info with access := s.info.access.insert span a } }
  | call span c =>
    { s with info := { s.info with extensionCalls := s.info.extensionCalls.insert span c } }
  | this span => { s with info := { s.info with this := s.info.this.insert span () } }

/-- What holds whenever resolution makes a change: a symbol that is declared is known, a type that
is settled is not changed, and a function is noted where it stands. -/
def Change.Legal (file : File) (s : State) : Change → Prop
  | alloc x => x.members = none
  | declare sc id => sc < s.info.symbols.scopes.size ∧ id < s.info.symbols.symbols.size ∧
      (s.info.symbols.symbol id).unknown = false ∧ file.Binds (s.info.symbols.symbol id).name
  | child parent _ _ => file.Encloses s.info.symbols parent
  | members id m => (s.info.symbols.symbol id).members = none ∧ m < s.info.symbols.scopes.size
  | type id _ => (s.info.symbols.symbol id).type = none ∨
      (s.info.symbols.symbol id).kind.settles = false
  | func span st => st.decl ∈ file.funcs ∧ st.decl.info.span = span ∧ st.phase = .fresh ∧
      file.Encloses s.info.symbols st.scope ∧ ∀ c, st.cls = some c →
        c < s.info.symbols.symbols.size ∧ (s.info.symbols.symbol c).kind = .cls
  | assume name id => file.Assumes name ∧ id < s.info.symbols.symbols.size ∧
      (s.info.symbols.symbol id).unknown = false ∧ (s.info.symbols.symbol id).name = name
  | classAt _ _ id | className _ id => s.info.symbols.IsClass id
  | var _ id => id < s.info.symbols.symbols.size ∧ (s.info.symbols.symbol id).kind = .var
  | param _ id => id < s.info.symbols.symbols.size ∧
      (s.info.symbols.symbol id).unknown = false ∧ file.BindsLocally (s.info.symbols.symbol id).name
  | _ => True

/-! ### Runs -/

variable {α : Type}

theorem exists_step {m : Resolver α} {s : State} {result : Except ResolveError (α × State)}
    (run : m s = result) :
    ∃ m', m' = m ∧ m' s = result := ⟨m, rfl, run⟩

/-- The second state is reached from the first by changes that may be made. -/
inductive State.Run (may : State → Change → Prop) : State → State → Prop where
  | refl (s : State) : State.Run may s s
  | step {s s' : State} {c : Change} : may s c → State.Run may (c.apply s) s' → State.Run may s s'

variable {c : Change}

namespace State.Run

variable {may may' : State → Change → Prop} {s s' s'' : State}

theorem one (h : may s c) : s.Run may (c.apply s) := .step h (.refl _)

theorem trans (h : s.Run may s') (h' : s'.Run may s'') : s.Run may s'' := by
  induction h with
  | refl => exact h'
  | step first _ ih => exact .step first (ih h')

theorem mono (imp : ∀ s c, may s c → may' s c) (h : s.Run may s') : s.Run may' s' := by
  induction h with
  | refl => exact .refl _
  | step first _ ih => exact .step (imp _ _ first) ih

theorem keeps {P : State → Prop} (once : ∀ s c, may s c → P s → P (c.apply s))
    (h : s.Run may s') (start : P s) : P s' := by
  induction h with
  | refl => exact start
  | step first _ ih => exact ih (once _ _ first start)

end State.Run

/-! ### What is known stays known -/

structure State.Grows (s s' : State) : Prop where
  symbols : s.info.symbols.Grows s'.info.symbols
  types : ∀ k, k ∈ s.info.types → k ∈ s'.info.types
  typeExprs : ∀ k, k ∈ s.info.typeExprs → k ∈ s'.info.typeExprs
  uses : ∀ k, k ∈ s.info.uses → k ∈ s'.info.uses
  access : ∀ k, k ∈ s.info.access → k ∈ s'.info.access
  calls : ∀ k, k ∈ s.info.extensionCalls → k ∈ s'.info.extensionCalls
  vars : ∀ k, k ∈ s.info.vars → k ∈ s'.info.vars
  loopVars : ∀ k, k ∈ s.info.loopVars → k ∈ s'.info.loopVars
  params : ∀ k, k ∈ s.info.params → k ∈ s'.info.params
  results : ∀ k, k ∈ s.info.results → k ∈ s'.info.results
  funcs : ∀ k, k ∈ s.funcs → k ∈ s'.funcs
  classes : s.info.classes <+: s'.info.classes
  assumed : s.assumed <:+ s'.assumed

variable {t : SymbolTable}

namespace State.Grows

theorem refl (s : State) : s.Grows s := by
  refine ⟨.refl _, ?_, ?_, ?_, ?_, ?_, ?_, ?_, ?_, ?_, ?_, List.prefix_rfl, List.suffix_rfl⟩
  all_goals exact fun _ h => h

theorem trans {s s' s'' : State} (h : s.Grows s') (h' : s'.Grows s'') : s.Grows s'' where
  symbols := h.symbols.trans h'.symbols
  types k x := h'.types k (h.types k x)
  typeExprs k x := h'.typeExprs k (h.typeExprs k x)
  uses k x := h'.uses k (h.uses k x)
  access k x := h'.access k (h.access k x)
  calls k x := h'.calls k (h.calls k x)
  vars k x := h'.vars k (h.vars k x)
  loopVars k x := h'.loopVars k (h.loopVars k x)
  params k x := h'.params k (h.params k x)
  results k x := h'.results k (h.results k x)
  funcs k x := h'.funcs k (h.funcs k x)
  classes := h.classes.trans h'.classes
  assumed := h.assumed.trans h'.assumed

theorem withSymbols {s : State} (h : s.info.symbols.Grows t) :
    s.Grows (s.withSymbols t) := { refl s with symbols := h }

end State.Grows

theorem mem_insert_of_mem {m : SpanMap α} {k span : Span} {v : α} (h : k ∈ m) :
    k ∈ m.insert span v := Std.TreeMap.mem_insert.mpr (.inr h)

theorem Change.grows {s : State} (legal : c.Legal file s) :
    s.Grows (c.apply s) := by
  have same := State.Grows.refl s
  cases c with
  | alloc x => exact .withSymbols (s.info.symbols.alloc_grows x)
  | declare sc id => exact .withSymbols (s.info.symbols.entered_grows sc id)
  | child parent kind owner => exact .withSymbols (s.info.symbols.child_grows parent kind owner)
  | members id m =>
    refine .withSymbols (s.info.symbols.modifySymbol_grows id ?_)
    refine ⟨rfl, rfl, rfl, fun n found => ?_, fun h => h, fun _ _ h => h⟩
    rw [legal.1] at found
    cases found
  | type id t =>
    refine .withSymbols (s.info.symbols.modifySymbol_grows id ?_)
    refine ⟨rfl, rfl, rfl, fun _ h => h, fun _ => rfl, fun settles u found => ?_⟩
    rcases legal with none | other
    · rw [none] at found
      cases found
    · rw [settles] at other
      cases other
  | classAt span name id => exact { same with classes := List.prefix_append _ _ }
  | extended e => exact { same with funcs := fun _ h => Std.TreeMap.mem_modify.mpr h }
  | func span st => exact { same with funcs := fun _ h => mem_insert_of_mem h }
  | phase span p => exact { same with funcs := fun _ h => Std.TreeMap.mem_modify.mpr h }
  | assume name id => exact { same with assumed := List.suffix_cons _ _ }
  | var span id => exact { same with vars := fun _ h => mem_insert_of_mem h }
  | param span id => exact { same with params := fun _ h => mem_insert_of_mem h }
  | result span t => exact { same with results := fun _ h => mem_insert_of_mem h }
  | written span t => exact { same with typeExprs := fun _ h => mem_insert_of_mem h }
  | expr span t => exact { same with types := fun _ h => mem_insert_of_mem h }
  | use span id => exact { same with uses := fun _ h => mem_insert_of_mem h }
  | access span a => exact { same with access := fun _ h => mem_insert_of_mem h }
  | call span c => exact { same with calls := fun _ h => mem_insert_of_mem h }
  | loopVar span id => exact { same with loopVars := fun _ h => mem_insert_of_mem h }
  | newClass _ | addBase _ _ | className _ _ | capabilities _ | extension _ | refurbish _ _ _
  | returns _ | typeName _ | this _ => exact { same with }

theorem State.Run.grows {may : State → Change → Prop} (legal : ∀ s c, may s c → c.Legal file s)
    {s s' : State} (h : s.Run may s') : s.Grows s' :=
  h.keeps (P := s.Grows)
    (fun _ _ allowed grown => grown.trans (Change.grows (legal _ _ allowed))) (.refl s)

/-! ### The state is well-formed -/

/-- The scopes around a scope, itself first, are known, and one of them is that of the file, unless the
scope may stand in none. -/
structure SymbolTable.Chained (file : File) (t : SymbolTable) (sc : ScopeId) : Prop where
  first : (t.scope sc).chain.head? = some sc
  root : 0 ∈ (t.scope sc).chain ∨ file.Detaches
  known : ∀ c ∈ (t.scope sc).chain, c < t.scopes.size

variable {sc : ScopeId}

theorem SymbolTable.Chained.mono {t t' : SymbolTable} (h : Chained file t sc)
    (lt : sc < t.scopes.size) (grown : t.Grows t') : Chained file t' sc := by
  have chain := (grown.scope sc lt).chain
  refine ⟨by rw [chain]; exact h.first, by rw [chain]; exact h.root, fun c member => ?_⟩
  rw [chain] at member
  exact Nat.lt_of_lt_of_le (h.known c member) grown.scopes

/-- Scopes stand in known scopes and lead to the file's own, what they declare is known and declared by
the file, and functions, variables, classes and assumed names are noted with the symbols and scopes they
have. -/
structure State.Formed (file : File) (s : State) : Prop where
  root : 0 < s.info.symbols.scopes.size
  chains : ∀ sc < s.info.symbols.scopes.size, SymbolTable.Chained file s.info.symbols sc
  orders : ∀ sc, ∀ id ∈ (s.info.symbols.scope sc).order, id < s.info.symbols.symbols.size ∧
    (s.info.symbols.symbol id).unknown = false ∧ file.Binds (s.info.symbols.symbol id).name
  members : ∀ id m, (s.info.symbols.symbol id).members = some m → m < s.info.symbols.scopes.size
  funcs : ∀ (span : Span) (st : FuncState), s.funcs[span]? = some st →
    st.decl ∈ file.funcs ∧ st.decl.info.span = span ∧ file.Encloses s.info.symbols st.scope
  assumed : ∀ x ∈ s.assumed, file.Assumes x.1 ∧ x.2 < s.info.symbols.symbols.size ∧
    (s.info.symbols.symbol x.2).unknown = false ∧ (s.info.symbols.symbol x.2).name = x.1
  vars : ∀ (span : Span) (id : SymbolId), s.info.vars[span]? = some id →
    id < s.info.symbols.symbols.size ∧ (s.info.symbols.symbol id).kind = .var
  classes : ∀ x ∈ s.info.classes, s.info.symbols.IsClass x.2.2
  called : ∀ x ∈ s.classes, s.info.symbols.IsClass x.2
  methods : ∀ (span : Span) (st : FuncState), s.funcs[span]? = some st → ∀ c, st.cls = some c →
    c < s.info.symbols.symbols.size ∧ (s.info.symbols.symbol c).kind = .cls
  params : ∀ (span : Span) (id : SymbolId), s.info.params[span]? = some id →
    id < s.info.symbols.symbols.size ∧ (s.info.symbols.symbol id).unknown = false ∧
      file.BindsLocally (s.info.symbols.symbol id).name

theorem State.formed_initial (file : File) : State.Formed file {} := by
  refine ⟨by decide, fun sc lt => ?_, fun sc id member => ?_, fun id m found => ?_, by simp,
    by simp, by simp, by simp, by simp, by simp, by simp⟩
  · obtain rfl : sc = 0 := by simpa using lt
    constructor <;> simp [SymbolTable.scope, Array.getD_eq_getD_getElem?]
  · by_cases root : sc = 0
    · subst root
      simp [SymbolTable.scope, Array.getD_eq_getD_getElem?] at member
    · rw [SymbolTable.scope_of_le (Nat.one_le_iff_ne_zero.mpr root)] at member
      cases member
  · rw [SymbolTable.symbol_of_le (by simp)] at found
    cases found

/-- A larger table in which the scopes and members of the old one are as they were. -/
theorem State.Formed.withSymbols {s : State} (formed : s.Formed file)
    (grown : s.info.symbols.Grows t)
    (chains : ∀ sc < t.scopes.size, SymbolTable.Chained file t sc)
    (orders : ∀ sc, ∀ id ∈ (t.scope sc).order, id < t.symbols.size ∧
      (t.symbol id).unknown = false ∧ file.Binds (t.symbol id).name)
    (members : ∀ id m, (t.symbol id).members = some m → m < t.scopes.size) :
    (s.withSymbols t).Formed file where
  root := Nat.lt_of_lt_of_le formed.root grown.scopes
  chains := chains
  orders := orders
  members := members
  funcs span st found := by
    obtain ⟨listed, own, home⟩ := formed.funcs span st found
    exact ⟨listed, own, home.mono grown.scopes⟩
  assumed x member := by
    obtain ⟨assumes, lt, unknown, name⟩ := formed.assumed x member
    have later := grown.symbol x.2 lt
    exact ⟨assumes, Nat.lt_of_lt_of_le lt grown.symbols, later.unknown.trans unknown,
      later.name.trans name⟩
  vars span id found := by
    obtain ⟨lt, kind⟩ := formed.vars span id found
    exact ⟨Nat.lt_of_lt_of_le lt grown.symbols, (grown.symbol id lt).kind.trans kind⟩
  classes x member := (formed.classes x member).mono grown
  called x member := (formed.called x member).mono grown
  methods span st found c own := by
    obtain ⟨lt, kind⟩ := formed.methods span st found c own
    exact ⟨Nat.lt_of_lt_of_le lt grown.symbols, (grown.symbol c lt).kind.trans kind⟩
  params span id found := by
    obtain ⟨lt, unknown, binds⟩ := formed.params span id found
    have later := grown.symbol id lt
    exact ⟨Nat.lt_of_lt_of_le lt grown.symbols, later.unknown.trans unknown, later.name ▸ binds⟩

variable {id : SymbolId}

theorem State.Formed.orders_mono {s : State} (formed : s.Formed file)
    (grown : s.info.symbols.Grows t)
    (member : id ∈ (s.info.symbols.scope sc).order) : id < t.symbols.size ∧
      (t.symbol id).unknown = false ∧ file.Binds (t.symbol id).name := by
  obtain ⟨lt, unknown, binds⟩ := formed.orders sc id member
  have later := grown.symbol id lt
  exact ⟨Nat.lt_of_lt_of_le lt grown.symbols, later.unknown.trans unknown, later.name ▸ binds⟩

theorem Change.formed_alloc {s : State} (formed : s.Formed file) {x : Symbol}
    (none : x.members = none) : ((Change.alloc x).apply s).Formed file := by
  have grown := s.info.symbols.alloc_grows x
  refine formed.withSymbols grown (fun sc lt => (formed.chains sc lt).mono lt grown)
    (fun sc id => formed.orders_mono grown) ?_
  intro id m found
  rw [SymbolTable.symbol_alloc] at found
  split at found
  · rw [none] at found
    cases found
  · exact formed.members id m found

theorem Change.formed_declare {s : State} (formed : s.Formed file)
    (legal : (Change.declare sc id).Legal file s) :
    ((Change.declare sc id).apply s).Formed file := by
  have grown := s.info.symbols.entered_grows sc id
  obtain ⟨-, lt, unknown, binds⟩ := legal
  refine formed.withSymbols grown (fun c lt => ?_) (fun c i member => ?_) fun i m found => ?_
  · have size : (s.info.symbols.entered sc id).scopes.size = s.info.symbols.scopes.size := Array.size_modify
    rw [size] at lt
    exact (formed.chains c lt).mono lt grown
  · rw [SymbolTable.scope_entered] at member
    split at member
    · rcases List.mem_append.mp member with old | new
      · exact formed.orders_mono grown old
      · obtain rfl := List.mem_singleton.mp new
        have later := grown.symbol i lt
        exact ⟨Nat.lt_of_lt_of_le lt grown.symbols, later.unknown.trans unknown,
          later.name ▸ binds⟩
    · exact formed.orders_mono grown member
  · have old : (s.info.symbols.symbol i).members = some m := by
      rw [SymbolTable.symbol_entered] at found
      split at found <;> exact found
    exact Nat.lt_of_lt_of_le (formed.members i m old) grown.scopes

/-- The scopes around a place are known, and one of them is that of the file, unless the place may stand
in none. -/
theorem State.Formed.chainOf {s : State} (formed : s.Formed file) {home : Option ScopeId}
    (known : file.Encloses s.info.symbols home) :
    (0 ∈ s.info.symbols.chainOf home ∨ file.Detaches) ∧
      ∀ d ∈ s.info.symbols.chainOf home, d < s.info.symbols.scopes.size := by
  cases home with
  | some sc => exact ⟨(formed.chains sc known).root, (formed.chains sc known).known⟩
  | none => exact ⟨.inr known, by simp [SymbolTable.chainOf]⟩

theorem Change.formed_child {s : State} (formed : s.Formed file) {parent : Option ScopeId}
    (known : file.Encloses s.info.symbols parent) (kind : ScopeKind)
    (owner : Option SymbolId) : ((Change.child parent kind owner).apply s).Formed file := by
  have grown := s.info.symbols.child_grows parent kind owner
  refine formed.withSymbols grown (fun c lt => ?_) (fun c i member => ?_) fun i m found => ?_
  · have size : (s.info.symbols.child parent kind owner).1.scopes.size = s.info.symbols.scopes.size + 1 :=
      Array.size_push _
    rw [size] at lt
    by_cases new : c = s.info.symbols.scopes.size
    · have chain : ((s.info.symbols.child parent kind owner).1.scope c).chain =
          c :: s.info.symbols.chainOf parent := by
        rw [SymbolTable.scope_child, if_pos new, new]
      obtain ⟨root, around⟩ := formed.chainOf known
      refine ⟨by rw [chain]; rfl, ?_, fun d member => ?_⟩
      · rw [chain]
        exact root.imp_left (List.mem_cons_of_mem _)
      · rw [chain] at member
        rw [size]
        rcases List.mem_cons.mp member with rfl | outer
        · exact lt
        · exact Nat.lt_succ_of_lt (around d outer)
    · have before := Nat.lt_of_le_of_ne (Nat.le_of_lt_succ lt) new
      exact (formed.chains c before).mono before grown
  · rw [SymbolTable.scope_child] at member
    split at member
    · cases member
    · exact formed.orders_mono grown member
  · exact Nat.lt_of_lt_of_le (formed.members i m found) grown.scopes

theorem Change.formed_modify {s : State} (formed : s.Formed file)
    {f : Symbol → Symbol} (grown : s.info.symbols.Grows (s.info.symbols.modifySymbol id f))
    (members : ∀ m, (f (s.info.symbols.symbol id)).members = some m →
      m < s.info.symbols.scopes.size) :
    (s.withSymbols (s.info.symbols.modifySymbol id f)).Formed file := by
  have size : (s.info.symbols.modifySymbol id f).scopes = s.info.symbols.scopes := rfl
  refine formed.withSymbols grown (fun sc lt => (formed.chains sc (size ▸ lt)).mono (size ▸ lt) grown)
    (fun sc i => formed.orders_mono grown) ?_
  intro i m found
  rw [SymbolTable.symbol_modifySymbol] at found
  split at found
  · next same =>
    rw [same.1] at found
    exact members m found
  · exact formed.members i m found

theorem Change.formed_funcs {s : State} (formed : s.Formed file) {span : Span}
    {f : FuncState → FuncState} (decl : ∀ st, (f st).decl = st.decl)
    (scope : ∀ st, (f st).scope = st.scope) (cls : ∀ st, (f st).cls = st.cls) :
    State.Formed file { s with funcs := s.funcs.modify span f } := by
  refine { formed with funcs := fun k st found => ?_, methods := fun k st found c own => ?_ }
  · obtain ⟨st', was, ⟨-, rfl⟩ | ⟨-, rfl⟩⟩ := getElem?_modify_or found
    · exact formed.funcs k _ was
    · rw [decl, scope]
      exact formed.funcs k _ was
  · obtain ⟨st', was, ⟨-, rfl⟩ | ⟨-, rfl⟩⟩ := getElem?_modify_or found
    · exact formed.methods k _ was c own
    · exact formed.methods k _ was c ((cls st').symm.trans own)

theorem getElem?_insert_cases {m : SpanMap α} {k span : Span} {v x : α}
    (h : (m.insert k v)[span]? = some x) : span = k ∧ x = v ∨ m[span]? = some x := by
  rw [Std.TreeMap.getElem?_insert] at h
  split at h
  · next same =>
    exact .inl ⟨(Std.LawfulEqOrd.eq_of_compare same).symm, (Option.some.inj h).symm⟩
  · exact .inr h

theorem Change.formed {s : State} (legal : c.Legal file s)
    (formed : s.Formed file) : (c.apply s).Formed file := by
  have grown := Change.grows legal
  cases c with
  | alloc x => exact formed_alloc formed legal
  | declare sc id => exact formed_declare formed legal
  | child parent kind owner => exact formed_child formed legal kind owner
  | members id m =>
    refine formed_modify formed grown.symbols fun n found => ?_
    cases found
    exact legal.2
  | type id t => exact formed_modify formed grown.symbols fun n found => formed.members id n found
  | extended e => exact formed_funcs formed (fun _ => rfl) (fun _ => rfl) fun _ => rfl
  | phase span p => exact formed_funcs formed (fun _ => rfl) (fun _ => rfl) fun _ => rfl
  | func span st =>
    refine { formed with funcs := fun k st' found => ?_, methods := fun k st' found => ?_ }
    · rcases getElem?_insert_cases found with ⟨rfl, rfl⟩ | old
      · exact ⟨legal.1, legal.2.1, legal.2.2.2.1⟩
      · exact formed.funcs k st' old
    · rcases getElem?_insert_cases found with ⟨rfl, rfl⟩ | old
      · exact legal.2.2.2.2
      · exact formed.methods k st' old
  | assume name id =>
    refine { formed with assumed := fun x member => ?_ }
    rcases List.mem_cons.mp member with rfl | member
    · exact legal
    · exact formed.assumed x member
  | classAt span name id =>
    refine { formed with classes := fun x member => ?_ }
    rcases List.mem_append.mp member with old | new
    · exact (formed.classes x old).mono grown.symbols
    · rw [List.mem_singleton.mp new]
      exact SymbolTable.IsClass.mono legal grown.symbols
  | className full id =>
    refine { formed with called := fun x member => ?_ }
    rcases List.mem_cons.mp member with rfl | member
    · exact legal
    · exact formed.called x member
  | var span id =>
    refine { formed with vars := fun k i found => ?_ }
    rcases getElem?_insert_cases found with ⟨rfl, rfl⟩ | old
    · exact legal
    · exact formed.vars k i old
  | param span id =>
    refine { formed with params := fun k i found => ?_ }
    rcases getElem?_insert_cases found with ⟨rfl, rfl⟩ | old
    · exact legal
    · exact formed.params k i old
  | newClass _ | addBase _ _ | capabilities _ | extension _ | refurbish _ _ _
  | returns _ | loopVar _ _ | result _ _ | written _ _ | expr _ _
  | typeName _ | use _ _ | access _ _ | call _ _ | this _ => exact { formed with }

theorem State.Run.formed {may : State → Change → Prop} (legal : ∀ s c, may s c → c.Legal file s)
    {s s' : State} (h : s.Run may s') (formed : s.Formed file) : s'.Formed file :=
  h.keeps (fun _ _ allowed => Change.formed (legal _ _ allowed)) formed

end Resolution

end TastyLang
