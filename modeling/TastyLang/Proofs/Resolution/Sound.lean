import TastyLang.Proofs.Outcome
import TastyLang.Proofs.Reading.Layout
import TastyLang.Proofs.Scope.Growth
import TastyLang.Proofs.Ty.Names
import TastyLang.Resolution.Names

/-!
# What resolution keeps

Resolution only adds to what it knows: symbols keep their names, scopes keep what is declared in
them, and a function that is not being resolved before a step is not being resolved after it
(`State.Leads`). The names in the types it makes come from the text, from the table, and from a few
fixed words, so they are good whenever these are (`State.Sound`). `Keeps` says both of a step.
-/

namespace TastyLang

/-- Which names are good: those of one line at least, and what is put together from good names. -/
structure Spelling (good : String → Prop) : Prop where
  oneLine {s : String} : Text.OneLine s → good s
  append {s t : String} : good s → good t → good (s ++ t)

theorem Spelling.all : Spelling fun _ => True := ⟨fun _ => trivial, fun _ _ => trivial⟩

theorem Spelling.lines : Spelling Text.OneLine := by
  refine ⟨id, fun left right => ?_⟩
  rw [Text.OneLine, Text.breaks_append, left, right]

def Table.Spelt (good : String → Prop) (t : Table) : Prop :=
  ∀ p ∈ t.primitives, good p.name ∧ good p.cpp

structure Symbol.Spelt (good : String → Prop) (s : Symbol) : Prop where
  name : good s.name
  type : ∀ t, s.type = some t → t.Spelt good

structure Extension.Spelt (good : String → Prop) (e : Extension) : Prop where
  cname : good e.cname
  self : e.self.Spelt good

/-- Everything that can be written in C++ has good names. -/
structure Info.Spelt (good : String → Prop) (i : Info) : Prop where
  symbols : ∀ s ∈ i.symbols.symbols, s.Spelt good
  typeExprs : ∀ (span : Span) (t : Ty), i.typeExprs[span]? = some t → t.Spelt good
  results : ∀ (span : Span) (t : Ty), i.results[span]? = some t → t.Spelt good
  calls : ∀ (span : Span) (c : ExtensionCall), i.extensionCalls[span]? = some c → c.ext.Spelt good
  added : ∀ c ∈ i.capabilities, ∀ e ∈ c.2.added, e.2.Spelt good
  extensions : ∀ e ∈ i.extensions, e.Spelt good

theorem Info.Spelt.symbol {good : String → Prop} {i : Info} (spelling : Spelling good) (h : i.Spelt good)
    (id : SymbolId) : (i.symbols.symbol id).Spelt good := by
  rw [SymbolTable.symbol, Array.getD_eq_getD_getElem?]
  cases found : i.symbols.symbols[id]? with
  | none => exact ⟨spelling.oneLine rfl, fun t h => by cases h⟩
  | some s => exact h.symbols s (Array.mem_of_getElem? found)

theorem mem_iff_found {α : Type} {m : SpanMap α} {span : Span} : span ∈ m ↔ ∃ x, m[span]? = some x := by
  rw [Std.TreeMap.mem_iff_isSome_getElem?, Option.isSome_iff_exists]

theorem getElem?_insert_or {α : Type} {m : SpanMap α} {k span : Span} {v x : α}
    (h : (m.insert k v)[span]? = some x) : x = v ∨ m[span]? = some x := by
  rw [Std.TreeMap.getElem?_insert] at h
  split at h
  · exact .inl (Option.some.inj h).symm
  · exact .inr h

theorem getElem?_modify_or {α : Type} {m : SpanMap α} {k span : Span} {f : α → α} {x : α}
    (h : (m.modify k f)[span]? = some x) :
    ∃ y, m[span]? = some y ∧ (span ≠ k ∧ x = y ∨ span = k ∧ x = f y) := by
  rw [Std.TreeMap.getElem?_modify] at h
  split at h
  · next same =>
    obtain rfl := Std.LawfulEqOrd.eq_of_compare same
    obtain ⟨y, found, rfl⟩ := Option.map_eq_some_iff.mp h
    exact ⟨y, found, .inr ⟨rfl, rfl⟩⟩
  · next other =>
    refine ⟨x, h, .inl ⟨fun same => other ?_, rfl⟩⟩
    rw [same]
    exact Std.ReflOrd.compare_self

theorem lookup_of_mem {α β : Type} [BEq α] [LawfulBEq α] {ns : List (α × β)}
    (distinct : (ns.map Prod.fst).Nodup) {name : α} {x : β} (inside : (name, x) ∈ ns) :
    ns.lookup name = some x := by
  induction ns with
  | nil => cases inside
  | cons y ns ih =>
    obtain ⟨key, value⟩ := y
    rw [List.map_cons, List.nodup_cons] at distinct
    rcases List.mem_cons.mp inside with same | later
    · cases same
      exact List.lookup_cons_self
    · have other : name ≠ key := by
        rintro rfl
        exact distinct.1 (List.mem_map.mpr ⟨_, later, rfl⟩)
      rw [List.lookup_cons, beq_false_of_ne other]
      exact ih distinct.2 later

/-- The names that a statement declares in the block around it. -/
def Stmt.binds : Stmt → List String
  | .decl _ d => [d.name]
  | _ => []

mutual

/-- No block in a statement declares a name twice. -/
def Stmt.Distinct : Stmt → Prop
  | .block b => b.Distinct
  | .branch _ _ _ yes none => yes.Distinct
  | .branch _ _ _ yes (some s) => yes.Distinct ∧ s.Distinct
  | .loop _ _ _ body | .count _ _ _ _ _ _ body | .each _ _ _ _ body => body.Distinct
  | .expr _ _ | .decl _ _ | .ret _ _ _ _ _ | .brk _ _ | .cont _ _ | .inject _ _ => True

def Block.Distinct : Block → Prop
  | .mk _ ss _ => (ss.flatMap Stmt.binds).Nodup ∧ Stmt.DistinctAll ss

def Stmt.DistinctAll : List Stmt → Prop
  | [] => True
  | s :: ss => s.Distinct ∧ Stmt.DistinctAll ss

end

/-- No block of a function declares a name twice. -/
def FuncDecl.Distinct (f : FuncDecl) : Prop := ∀ b, f.body = some b → b.Distinct

namespace Resolution

/-- What is known about a function to be resolved: it is one of `fs`, and once it is done the names
in each of its blocks are distinct. -/
structure FuncState.Sound (good : String → Prop) (fs : List FuncDecl) (span : Span)
    (st : FuncState) : Prop where
  listed : st.decl ∈ fs
  span : st.decl.info.span = span
  ext : ∀ e, st.ext = some e → e.Spelt good
  done : st.phase = .done → st.decl.Distinct

/-- The names in a state are good, and so is what it knows about functions. -/
structure State.Sound (good : String → Prop) (fs : List FuncDecl) (s : State) : Prop where
  info : s.info.Spelt good
  refurbished : ∀ x ∈ s.refurbished, x.2.2.Spelt good
  returns : ∀ t ∈ s.returns, t.Spelt good
  funcs : ∀ (span : Span) (st : FuncState), s.funcs[span]? = some st → st.Sound good fs span

def State.isActive (s : State) (span : Span) : Prop :=
  ∃ st, s.funcs[span]? = some st ∧ st.phase = .active

/-- What holds from one state to every later one. -/
structure State.Leads (s s' : State) : Prop where
  symbols : s.info.symbols.Extends s'.info.symbols
  funcs : ∀ span, span ∈ s.funcs → span ∈ s'.funcs
  classes : ∀ span, (s.info.classSymbol? span).isSome → (s'.info.classSymbol? span).isSome
  active : ∀ span, s'.isActive span → s.isActive span

namespace State.Leads

theorem refl (s : State) : s.Leads s := ⟨.refl _, fun _ h => h, fun _ h => h, fun _ h => h⟩

theorem trans {s s' s'' : State} (h : s.Leads s') (h' : s'.Leads s'') : s.Leads s'' :=
  ⟨h.symbols.trans h'.symbols, fun span x => h'.funcs span (h.funcs span x),
    fun span x => h'.classes span (h.classes span x),
    fun span x => h.active span (h'.active span x)⟩

end State.Leads

/-! ### Runs -/

variable {α β : Type}

/-- Every run of `m` from a sound state leads to a sound state and gives a fine result. -/
structure Keeps (good : String → Prop) (fs : List FuncDecl) (m : Resolver α) (fine : α → Prop) :
    Prop where
  run {s a s'} : s.Sound good fs → m s = .ok (a, s') → s.Leads s' ∧ s'.Sound good fs ∧ fine a

variable {good : String → Prop} {fs : List FuncDecl} {m : Resolver α} {fine fine' : α → Prop}
  {s s' : State}

namespace Keeps

theorem pure {a : α} (h : fine a) : Keeps good fs (pure a) fine := by
  refine ⟨fun sound run => ?_⟩
  cases run
  exact ⟨.refl _, sound, h⟩

theorem bind {f : α → Resolver β} {last : β → Prop} (first : Keeps good fs m fine)
    (rest : ∀ a, fine a → Keeps good fs (f a) last) : Keeps good fs (m >>= f) last := by
  refine ⟨fun sound run => ?_⟩
  obtain ⟨a, s₁, run₁, run₂⟩ := bind_ok run
  obtain ⟨leads, sound, h⟩ := first.run sound run₁
  obtain ⟨leads', sound, h⟩ := (rest a h).run sound run₂
  exact ⟨leads.trans leads', sound, h⟩

theorem mono (h : Keeps good fs m fine) (imp : ∀ a, fine a → fine' a) :
    Keeps good fs m fine' := by
  refine ⟨fun sound run => ?_⟩
  obtain ⟨leads, sound, result⟩ := h.run sound run
  exact ⟨leads, sound, imp _ result⟩

theorem map {f : α → β} {last : β → Prop} (h : Keeps good fs m fine)
    (imp : ∀ a, fine a → last (f a)) : Keeps good fs (f <$> m) last := by
  rw [map_eq_pure_bind]
  exact h.bind fun a result => pure (imp a result)

theorem discard (h : Keeps good fs m fine) : Keeps good fs (discard m) fun _ => True :=
  h.map fun _ _ => trivial

theorem get : Keeps good fs get fun s => s.Sound good fs := by
  refine ⟨fun sound run => ?_⟩
  cases run
  exact ⟨.refl _, sound, sound⟩

theorem fail {e : ResolveError} : Keeps good fs (fail e : Resolver α) fine := by
  refine ⟨fun sound run => ?_⟩
  cases run

theorem failType {cause : TypeError.Cause} {pos : Pos} :
    Keeps good fs (failType cause pos : Resolver α) fine := fail

theorem forM {f : α → Resolver Unit} {xs : List α}
    (each : ∀ x ∈ xs, Keeps good fs (f x) fun _ => True) :
    Keeps good fs (xs.forM f) fun _ => True := by
  induction xs with
  | nil => exact pure trivial
  | cons x xs ih =>
    refine (each x List.mem_cons_self).bind fun _ _ => ih ?_
    exact fun y member => each y (List.mem_cons_of_mem _ member)

theorem first_ok {f : α → Resolver β} (first : Keeps good fs m fine) {b : β}
    (sound : s.Sound good fs) (run : (m >>= f) s = .ok (b, s')) :
    ∃ a s₁, s₁.Sound good fs ∧ s.Leads s₁ ∧ m s = .ok (a, s₁) ∧ fine a ∧
      f a s₁ = .ok (b, s') := by
  obtain ⟨a, s₁, run₁, run₂⟩ := bind_ok run
  obtain ⟨leads, sound₁, h⟩ := first.run sound run₁
  exact ⟨a, s₁, sound₁, leads, run₁, h, run₂⟩

theorem forM_ok {f : α → Resolver Unit} {xs : List α}
    (each : ∀ x ∈ xs, Keeps good fs (f x) fun _ => True) {u : Unit} (sound : s.Sound good fs)
    (run : xs.forM f s = .ok (u, s')) {x : α} (member : x ∈ xs) :
    ∃ s₁ s₂, s₁.Sound good fs ∧ s.Leads s₁ ∧ f x s₁ = .ok ((), s₂) ∧ s₂.Leads s' := by
  induction xs generalizing s with
  | nil => cases member
  | cons y ys ih =>
    obtain ⟨_, s₁, first, rest⟩ := bind_ok run
    have later := fun z inside => each z (List.mem_cons_of_mem _ inside)
    obtain ⟨leads, sound', -⟩ := (each y List.mem_cons_self).run sound first
    rcases List.mem_cons.mp member with rfl | member
    · exact ⟨s, s₁, sound, .refl s, first, ((forM later).run sound' rest).1⟩
    · obtain ⟨s₂, s₃, sound₂, before, ran, after⟩ := ih later sound' rest member
      exact ⟨s₂, s₃, sound₂, leads.trans before, ran, after⟩

end Keeps

/-! ### Steps on the state -/

theorem modify_keeps {f : State → State}
    (h : ∀ s, s.Sound good fs → s.Leads (f s) ∧ (f s).Sound good fs) :
    Keeps good fs (modify f) fun _ => True := by
  refine ⟨fun sound run => ?_⟩
  cases run
  exact ⟨(h _ sound).1, (h _ sound).2, trivial⟩

theorem State.Leads.of_same (symbols : s'.info.symbols = s.info.symbols)
    (funcs : s'.funcs = s.funcs) (classes : s'.info.classes = s.info.classes) : s.Leads s' := by
  refine ⟨symbols ▸ .refl _, fun _ h => funcs ▸ h, fun span h => ?_, fun span h => ?_⟩
  · simpa only [Info.classSymbol?, classes] using h
  · simpa only [State.isActive, funcs] using h

/-- The last step of a signature notes the result, if one is known. -/
def noteResult? (span : Span) : Option Ty → Resolver Unit
  | some t => modifyInfo fun i => { i with results := i.results.insert span t }
  | none => pure ()

theorem note_keeps {f : Info → Info} (symbols : ∀ i, (f i).symbols = i.symbols)
    (classes : ∀ i, (f i).classes = i.classes) (spelt : ∀ i, i.Spelt good → (f i).Spelt good) :
    Keeps good fs (modifyInfo f) fun _ => True := by
  refine modify_keeps fun s sound => ⟨.of_same (symbols s.info) rfl (classes s.info), ?_⟩
  exact ⟨spelt _ sound.info, sound.refurbished, sound.returns, sound.funcs⟩

def State.withSymbols (s : State) (t : SymbolTable) : State :=
  { s with info := { s.info with symbols := t } }

theorem State.Sound.withSymbols {s : State} (sound : s.Sound good fs) {t : SymbolTable}
    (ext : s.info.symbols.Extends t) (spelt : ∀ x ∈ t.symbols, x.Spelt good) :
    s.Leads (s.withSymbols t) ∧ (s.withSymbols t).Sound good fs :=
  ⟨⟨ext, fun _ h => h, fun _ h => h, fun _ h => h⟩,
    ⟨{ sound.info with symbols := spelt }, sound.refurbished, sound.returns, sound.funcs⟩⟩

theorem requireAssignable_keeps (dst src : Ty) (pos : Pos) :
    Keeps good fs (requireAssignable dst src pos) fun _ => True := by
  refine Keeps.get.bind fun s _ => ?_
  split
  · exact .pure trivial
  · exact .failType

theorem symbolOf_keeps (spelling : Spelling good) (id : SymbolId) :
    Keeps good fs (symbolOf id) fun s => s.Spelt good :=
  Keeps.get.bind fun _ sound => .pure (sound.info.symbol spelling id)

theorem alloc_run (x : Symbol) (s : State) : alloc x s =
    .ok (s.info.symbols.symbols.size, s.withSymbols (s.info.symbols.alloc x).1) := rfl

theorem alloc_ok {x : Symbol} {id : SymbolId} (run : alloc x s = .ok (id, s')) :
    id < s'.info.symbols.symbols.size ∧ s'.info.symbols.symbol id = x := by
  cases (alloc_run x s).symm.trans run
  constructor
  · simp [State.withSymbols, SymbolTable.alloc]
  · simp [State.withSymbols, SymbolTable.symbol_alloc]

theorem alloc_keeps {x : Symbol} (spelt : x.Spelt good) :
    Keeps good fs (alloc x) fun _ => True := by
  refine ⟨fun {s _ _} sound run => ?_⟩
  cases (alloc_run x s).symm.trans run
  obtain ⟨leads, sound⟩ := sound.withSymbols (s.info.symbols.alloc_extends x) fun y member => by
    rcases Array.mem_push.mp member with member | rfl
    · exact sound.info.symbols y member
    · exact spelt
  exact ⟨leads, sound, trivial⟩

theorem modifySymbol_keeps (id : SymbolId) {f : Symbol → Symbol} (name : ∀ s, (f s).name = s.name)
    (kind : ∀ s, (f s).kind = s.kind) (spelt : ∀ s, s.Spelt good → (f s).Spelt good) :
    Keeps good fs (modifySymbol id f) fun _ => True := by
  refine ⟨fun {s _ _} sound run => ?_⟩
  cases run
  obtain ⟨leads, sound⟩ := sound.withSymbols (s.info.symbols.modifySymbol_extends id name kind)
    fun y member => by
      rcases mem_modify member with old | ⟨x, old, rfl⟩
      · exact sound.info.symbols y old
      · exact spelt x (sound.info.symbols x old)
  exact ⟨leads, sound, trivial⟩

theorem setType_keeps (id : SymbolId) {t : Ty} (spelt : t.Spelt good) :
    Keeps good fs (setType id t) fun _ => True := by
  refine modifySymbol_keeps id (fun _ => rfl) (fun _ => rfl) fun s h => ⟨h.name, fun u same => ?_⟩
  cases same
  exact spelt

theorem declare_run {sc : ScopeId} {id : SymbolId} {pos : Pos} {u : Unit}
    (run : declare sc id pos s = .ok (u, s')) :
    ∃ t, s.info.symbols.declare sc id pos = .ok t ∧ s' = s.withSymbols t := by
  obtain ⟨_, _, read, run⟩ := bind_ok run
  cases read
  cases declared : s.info.symbols.declare sc id pos with
  | ok t =>
    rw [declared] at run
    cases run
    exact ⟨t, rfl, rfl⟩
  | error e =>
    rw [declared] at run
    cases run

theorem declare_keeps (sc : ScopeId) (id : SymbolId) (pos : Pos) :
    Keeps good fs (declare sc id pos) fun _ => True := by
  refine ⟨fun {s _ _} sound run => ?_⟩
  obtain ⟨t, declared, rfl⟩ := declare_run run
  obtain ⟨leads, sound⟩ := sound.withSymbols (SymbolTable.declare_extends declared)
    fun y member => by
      obtain ⟨x, old, name, type⟩ := SymbolTable.declare_symbols declared member
      have spelt := sound.info.symbols x old
      exact ⟨name ▸ spelt.name, type ▸ spelt.type⟩
  exact ⟨leads, sound, trivial⟩

theorem newScope_run (parent : Option ScopeId) (kind : ScopeKind) (owner : Option SymbolId) (s : State) :
    newScope parent kind owner s = .ok (s.info.symbols.scopes.size,
      s.withSymbols (s.info.symbols.child parent kind owner).1) := rfl

theorem newScope_ok {parent : Option ScopeId} {kind : ScopeKind} {owner : Option SymbolId}
    {id : ScopeId} (run : newScope parent kind owner s = .ok (id, s')) :
    id < s'.info.symbols.scopes.size := by
  cases (newScope_run parent kind owner s).symm.trans run
  simp [State.withSymbols, SymbolTable.child]

theorem newScope_keeps (parent : Option ScopeId) (kind : ScopeKind) (owner : Option SymbolId) :
    Keeps good fs (newScope parent kind owner) fun _ => True := by
  refine ⟨fun {s _ _} sound run => ?_⟩
  cases (newScope_run parent kind owner s).symm.trans run
  obtain ⟨leads, sound⟩ := sound.withSymbols
    (s.info.symbols.child_extends parent kind owner) sound.info.symbols
  exact ⟨leads, sound, trivial⟩

end Resolution

end TastyLang
