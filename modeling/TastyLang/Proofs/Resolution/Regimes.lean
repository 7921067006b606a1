import TastyLang.Proofs.Resolution.Changes
import TastyLang.Proofs.Resolution.Ranges

/-!
# What a pass may change

The second pass reads the written types of signatures, the third values and bodies (`File.early`,
`File.late`). A `Regime` says which changes a pass may make and what it relies on. `Covers r sc m ns`
says that every run of `m` in the scope `sc` keeps to the regime `r` and notes all of the nodes `ns`;
it is put together along the steps of `m`.
-/

namespace TastyLang

/-! ### What the passes read -/

/-- The written types of a function's signature. -/
def FuncDecl.early (f : FuncDecl) : List Node :=
  f.params.flatMap (fun q => q.type.nodes) ++ nodesIn TypeExpr.nodes f.result

/-- The values of a function's parameters, and its body. -/
def FuncDecl.late (f : FuncDecl) : List Node :=
  f.params.flatMap (fun q => nodesIn Expr.nodes q.value) ++ nodesIn Block.nodes f.body

def Item.early : Item → List Node
  | .var d => nodesIn (fun t => .var d :: t.nodes) d.type
  | .func f => f.early
  | .enum _ | .inject _ _ => []

def Item.late : Item → List Node
  | .var d => .var d :: nodesIn Expr.nodes d.value
  | .func f => f.late
  | .enum d => d.members.flatMap fun m => nodesIn Expr.nodes m.value
  | .inject _ _ => []

mutual

def Decl.early : Decl → List Node
  | .item i => i.early
  | .scope _ _ ds => Decl.earlyOf ds
  | .cls _ _ bases items => TypeExpr.nodesOf bases ++ items.flatMap Item.early
  | .abstraction _ _ target fs | .refurbish _ target fs =>
    target.nodes ++ fs.flatMap FuncDecl.early
  | .includes _ _ _ _ | .assume _ _ _ | .attributeDef _ _ _ _ => []

def Decl.earlyOf : List Decl → List Node
  | [] => []
  | d :: ds => d.early ++ Decl.earlyOf ds

end

mutual

def Decl.late : Decl → List Node
  | .item i => i.late
  | .scope _ _ ds => Decl.lateOf ds
  | .cls _ _ _ items => items.flatMap Item.late
  | .abstraction _ _ _ fs | .refurbish _ _ fs => fs.flatMap FuncDecl.late
  | .includes _ _ _ _ | .assume _ _ _ | .attributeDef _ _ _ _ => []

def Decl.lateOf : List Decl → List Node
  | [] => []
  | d :: ds => d.late ++ Decl.lateOf ds

end

theorem Decl.earlyOf_eq (ds : List Decl) : Decl.earlyOf ds = ds.flatMap Decl.early := by
  induction ds with
  | nil => rfl
  | cons d ds ih => rw [Decl.earlyOf, ih, List.flatMap_cons]

theorem Decl.lateOf_eq (ds : List Decl) : Decl.lateOf ds = ds.flatMap Decl.late := by
  induction ds with
  | nil => rfl
  | cons d ds ih => rw [Decl.lateOf, ih, List.flatMap_cons]

def File.early (file : File) : List Node := Decl.earlyOf file.decls

def File.late (file : File) : List Node := Decl.lateOf file.decls

variable {n : Node}

theorem FuncDecl.late_subset {f : FuncDecl} (h : n ∈ f.late) : n ∈ f.nodes := by
  simp only [FuncDecl.late, FuncDecl.nodes, List.mem_append, List.mem_flatMap, List.mem_cons,
    Param.nodes] at h ⊢
  grind

theorem Item.late_subset {i : Item} (h : n ∈ i.late) : n ∈ i.nodes := by
  cases i with
  | var d =>
    rcases List.mem_cons.mp h with rfl | h
    · exact List.mem_cons_self
    · exact List.mem_cons_of_mem _ (List.mem_append_right _ h)
  | func f => exact FuncDecl.late_subset h
  | enum d => exact List.mem_cons_of_mem _ h
  | inject info text => cases h

mutual

theorem Decl.late_subset {n : Node} : (d : Decl) → n ∈ d.late → n ∈ d.nodes
  | .item i, h => by
    rw [Decl.nodes]
    exact Item.late_subset h
  | .scope _ _ ds, h => by
    rw [Decl.nodes]
    exact List.mem_cons_of_mem _ (Decl.lateOf_subset ds h)
  | .cls _ _ _ items, h => by
    rw [Decl.nodes]
    obtain ⟨i, inside, h⟩ := List.mem_flatMap.mp h
    refine List.mem_cons_of_mem _ (List.mem_append_right _ ?_)
    exact List.mem_flatMap.mpr ⟨i, inside, Item.late_subset h⟩
  | .abstraction _ _ _ fs, h | .refurbish _ _ fs, h => by
    rw [Decl.nodes]
    obtain ⟨f, inside, h⟩ := List.mem_flatMap.mp h
    refine List.mem_cons_of_mem _ (List.mem_append_right _ ?_)
    exact List.mem_flatMap.mpr ⟨f, inside, FuncDecl.late_subset h⟩
  | .includes _ _ _ _, h | .assume _ _ _, h | .attributeDef _ _ _ _, h => by cases h

theorem Decl.lateOf_subset {n : Node} : (ds : List Decl) → n ∈ Decl.lateOf ds →
    n ∈ Decl.nodesOf ds
  | d :: ds, h => by
    rw [Decl.nodesOf]
    rcases List.mem_append.mp h with h | h
    · exact List.mem_append_left _ (Decl.late_subset d h)
    · exact List.mem_append_right _ (Decl.lateOf_subset ds h)

end

theorem File.late_subset {file : File} (h : n ∈ file.late) : n ∈ file.nodes :=
  List.mem_cons_of_mem _ (Decl.lateOf_subset _ h)

theorem FuncDecl.early_subset {f : FuncDecl} (h : n ∈ f.early) : n ∈ f.nodes := by
  simp only [FuncDecl.early, FuncDecl.nodes, List.mem_append, List.mem_flatMap, List.mem_cons,
    Param.nodes] at h ⊢
  grind

theorem Item.early_subset {i : Item} (h : n ∈ i.early) : n ∈ i.nodes := by
  cases i with
  | var d =>
    rw [Item.nodes, VarDecl.nodes]
    cases written : d.type with
    | none => simp [Item.early, written, nodesIn] at h
    | some te =>
      rw [Item.early, written] at h
      rcases List.mem_cons.mp h with rfl | h
      · exact List.mem_cons_self
      · exact List.mem_cons_of_mem _ (List.mem_append_left _ h)
  | func f => exact FuncDecl.early_subset h
  | enum d => cases h
  | inject info text => cases h

mutual

theorem Decl.early_subset {n : Node} : (d : Decl) → n ∈ d.early → n ∈ d.nodes
  | .item i, h => by
    rw [Decl.nodes]
    exact Item.early_subset h
  | .scope _ _ ds, h => by
    rw [Decl.nodes]
    exact List.mem_cons_of_mem _ (Decl.earlyOf_subset ds h)
  | .cls _ _ _ items, h => by
    rw [Decl.nodes]
    refine List.mem_cons_of_mem _ (List.mem_append.mpr ?_)
    refine (List.mem_append.mp h).imp_right fun h => ?_
    obtain ⟨i, inside, h⟩ := List.mem_flatMap.mp h
    exact List.mem_flatMap.mpr ⟨i, inside, Item.early_subset h⟩
  | .abstraction _ _ _ fs, h | .refurbish _ _ fs, h => by
    rw [Decl.nodes]
    refine List.mem_cons_of_mem _ (List.mem_append.mpr ?_)
    refine (List.mem_append.mp h).imp_right fun h => ?_
    obtain ⟨f, inside, h⟩ := List.mem_flatMap.mp h
    exact List.mem_flatMap.mpr ⟨f, inside, FuncDecl.early_subset h⟩
  | .includes _ _ _ _, h | .assume _ _ _, h | .attributeDef _ _ _ _, h => by cases h

theorem Decl.earlyOf_subset {n : Node} : (ds : List Decl) → n ∈ Decl.earlyOf ds →
    n ∈ Decl.nodesOf ds
  | d :: ds, h => by
    rw [Decl.nodesOf]
    rcases List.mem_append.mp h with h | h
    · exact List.mem_append_left _ (Decl.early_subset d h)
    · exact List.mem_append_right _ (Decl.earlyOf_subset ds h)

end

theorem File.early_subset {file : File} (h : n ∈ file.early) : n ∈ file.nodes :=
  List.mem_cons_of_mem _ (Decl.earlyOf_subset _ h)

/-- The names that a declaration adds to the scope around it. -/
def Decl.own : Decl → List String
  | .item (.var d) => [d.name]
  | .item (.func f) => if f.kind = .constructor ∨ f.kind = .destructor then [] else [f.name]
  | .item (.enum d) => [d.name]
  | .assume _ name _ | .scope _ name _ | .cls _ name _ _ | .abstraction _ name _ _
  | .attributeDef _ name _ _ => [name]
  | .item (.inject _ _) | .includes _ _ _ _ | .refurbish _ _ _ => []

/-- A namespace that the file does not declare: the table has it, or it is the head of a dotted
name that the file assumes. -/
def File.OuterNamespace (file : File) (table : Table) (name : String) : Prop :=
  table.isNamespace name = true ∨
    ∃ full, file.Assumes full ∧ Text.startsWith (name ++ ".") full = true

namespace Resolution

/-! ### Nodes that are noted -/

/-- A node has its entry: an expression its type, a name its symbol, a member access its form unless
it is called as an extension, a written type its type, a variable its typed symbol, a loop over a
collection the symbol of its variable, and a function its result and the symbols of its parameters. -/
def State.Noted (file : File) (s : State) : Node → Prop
  | .expr e => e.span ∈ s.info.types ∧
    match e with
    | .ident span _ => span ∈ s.info.uses
    | .member span _ _ _ => span ∈ s.info.access ∨
      ∃ at' args, .expr (.call at' e args) ∈ file.nodes ∧ at' ∈ s.info.extensionCalls
    | _ => True
  | .type t => t.span ∈ s.info.typeExprs
  | .var d => ∃ id, s.info.vars[d.info.span]? = some id ∧ (s.info.symbols.symbol id).type.isSome
  | .stmt (.each span _ _ _ _) => span ∈ s.info.loopVars
  | .func f => f.info.span ∈ s.info.results ∧ ∀ q ∈ f.params, q.span ∈ s.info.params
  | _ => True

/-- A function is resolved as a whole. -/
structure State.Finished (file : File) (s : State) (f : FuncDecl) : Prop where
  late : ∀ n ∈ f.late, s.Noted file n
  result : f.info.span ∈ s.info.results
  rangeless : f.Rangeless

/-- A change that gives no variable a symbol without a type. -/
def Change.Steady (s : State) : Change → Prop
  | var _ id => (s.info.symbols.symbol id).type.isSome
  | _ => True

theorem State.Noted.mono {file : File} {s s' : State} (grown : s.Grows s')
    (vars : ∀ d, s.Noted file (.var d) → s'.Noted file (.var d)) :
    (n : Node) → s.Noted file n → s'.Noted file n
  | .type _, h => grown.typeExprs _ h
  | .var d, h => vars d h
  | .func _, h => ⟨grown.results _ h.1, fun q member => grown.params _ (h.2 q member)⟩
  | .expr e, h => by
    refine ⟨grown.types _ h.1, ?_⟩
    cases e with
    | ident span name => exact grown.uses _ h.2
    | member span x name accessor =>
      refine h.2.imp (grown.access _) ?_
      rintro ⟨at', args, listed, called⟩
      exact ⟨at', args, listed, grown.calls _ called⟩
    | _ => trivial
  | .stmt st, h => by
    cases st with
    | each span name storage items body => exact grown.loopVars _ h
    | _ => trivial
  | .file _, _ | .decl _, _ | .enum _, _ | .inject _, _ | .block _, _ => trivial

theorem Change.noted {file : File} {s : State} {c : Change} (legal : c.Legal file s)
    (steady : c.Steady s) (formed : s.Formed file) (n : Node) (h : s.Noted file n) :
    (c.apply s).Noted file n := by
  have grown := Change.grows legal
  refine State.Noted.mono grown (fun d h => ?_) n h
  obtain ⟨id, found, typed⟩ := h
  have kept : (c.apply s).info.vars = s.info.vars →
      ∃ i, (c.apply s).info.vars[d.info.span]? = some i ∧
        ((c.apply s).info.symbols.symbol i).type.isSome := by
    intro same
    refine ⟨id, same ▸ found, ?_⟩
    exact (grown.symbols.symbol id (formed.vars _ _ found).1).typed typed
  cases c with
  | var span i =>
    by_cases same : d.info.span = span
    · refine ⟨i, ?_, steady⟩
      simp [Change.apply, same]
    · refine ⟨id, ?_, typed⟩
      have apart : compare span d.info.span ≠ .eq := fun h =>
        same (Std.LawfulEqOrd.eq_of_compare h).symm
      simpa [Change.apply, Std.TreeMap.getElem?_insert, apart] using found
  | _ => exact kept rfl

/-! ### Regimes -/

/-- The changes that a pass may make, and what it relies on. -/
structure Regime (file : File) where
  may : State → Change → Prop
  relies : State → Prop
  legal : ∀ s c, may s c → c.Legal file s
  steady : ∀ s c, may s c → c.Steady s
  lasting : ∀ s c, may s c → s.Formed file → relies s → relies (c.apply s)

variable {file : File} {r : Regime file} {sc : ScopeId}

/-- A state in which a pass can go on in a scope. -/
structure Regime.Ready (r : Regime file) (sc : ScopeId) (s : State) : Prop where
  formed : s.Formed file
  relies : r.relies s
  inside : sc < s.info.symbols.scopes.size

theorem Regime.Ready.run {s s' : State} (ready : r.Ready sc s) (run : s.Run r.may s') :
    r.Ready sc s' := by
  induction run with
  | refl => exact ready
  | step allowed _ ih =>
    have legal := r.legal _ _ allowed
    exact ih ⟨Change.formed legal ready.formed, r.lasting _ _ allowed ready.formed ready.relies,
      Nat.lt_of_lt_of_le ready.inside (Change.grows legal).symbols.scopes⟩

theorem Regime.grows {s s' : State} (run : s.Run r.may s') : s.Grows s' := run.grows r.legal

theorem Regime.noted {s s' : State} (formed : s.Formed file) (run : s.Run r.may s')
    (h : s.Noted file n) : s'.Noted file n := by
  induction run with
  | refl => exact h
  | step allowed _ ih =>
    have legal := r.legal _ _ allowed
    exact ih (Change.formed legal formed) (Change.noted legal (r.steady _ _ allowed) formed n h)

theorem Regime.forM_run {α : Type} (stands : α → State → Prop) {f : α → Resolver Unit}
    {xs : List α} {u : Unit} {s s' : State} (ready : r.Ready sc s)
    (lasting : ∀ x ∈ xs, ∀ {s₁ s₂ : State}, s₁.Formed file → s₁.Run r.may s₂ → stands x s₁ →
      stands x s₂)
    (each : ∀ x ∈ xs, ∀ {s₁ s₂ : State}, s.Run r.may s₁ → r.Ready sc s₁ →
      f x s₁ = .ok ((), s₂) → s₁.Run r.may s₂ ∧ stands x s₂)
    (run : xs.forM f s = .ok (u, s')) : s.Run r.may s' ∧ ∀ x ∈ xs, stands x s' := by
  induction xs generalizing s with
  | nil =>
    cases run
    exact ⟨.refl _, by simp⟩
  | cons x xs ih =>
    obtain ⟨_, s₁, first, rest⟩ := bind_ok run
    obtain ⟨run₁, here⟩ := each x List.mem_cons_self (.refl s) ready first
    have ready₁ := ready.run run₁
    obtain ⟨run₂, others⟩ := ih ready₁
      (fun y member => lasting y (List.mem_cons_of_mem _ member))
      (fun y member _ _ before => each y (List.mem_cons_of_mem _ member) (run₁.trans before)) rest
    refine ⟨run₁.trans run₂, ?_⟩
    simp only [List.mem_cons, forall_eq_or_imp]
    exact ⟨lasting x List.mem_cons_self ready₁.formed run₂ here, others⟩

/-! ### What is reached -/

/-- What a pass leaves of some nodes and functions: the nodes are noted, and of the functions
something holds. -/
structure State.Reached (file : File) (holds : State → FuncDecl → Prop) (s : State)
    (ns : List Node) (fs : List FuncDecl) : Prop where
  nodes : ∀ n ∈ ns, s.Noted file n
  funcs : ∀ f ∈ fs, holds s f

/-- What holds of a function lasts under a regime. -/
def Regime.Lasts (r : Regime file) (holds : State → FuncDecl → Prop) : Prop :=
  ∀ {s s' : State} {f : FuncDecl}, s.Formed file → s.Run r.may s' → holds s f → holds s' f

namespace State.Reached

variable {holds : State → FuncDecl → Prop} {s s' : State} {ns ns' : List Node}
  {fs fs' : List FuncDecl}

theorem run (h : s.Reached file holds ns fs) (lasts : r.Lasts holds) (formed : s.Formed file)
    (run : s.Run r.may s') : s'.Reached file holds ns fs where
  nodes n member := Regime.noted formed run (h.nodes n member)
  funcs f member := lasts formed run (h.funcs f member)

theorem nil : s.Reached file holds [] [] := ⟨by simp, by simp⟩

theorem of_noted (h : ∀ n ∈ ns, s.Noted file n) : s.Reached file holds ns [] := ⟨h, by simp⟩

theorem append (h : s.Reached file holds ns fs) (h' : s.Reached file holds ns' fs') :
    s.Reached file holds (ns ++ ns') (fs ++ fs') := by
  refine ⟨fun n member => ?_, fun f member => ?_⟩
  · exact (List.mem_append.mp member).elim (h.nodes n) (h'.nodes n)
  · exact (List.mem_append.mp member).elim (h.funcs f) (h'.funcs f)

theorem more (noted : ∀ n ∈ ns, s.Noted file n) (h : s.Reached file holds ns' fs) :
    s.Reached file holds (ns ++ ns') fs :=
  ⟨fun n member => (List.mem_append.mp member).elim (noted n) (h.nodes n), h.funcs⟩

theorem flatMap {α : Type} {xs : List α} {parts : α → List Node} {funcs : α → List FuncDecl}
    (h : ∀ x ∈ xs, s.Reached file holds (parts x) (funcs x)) :
    s.Reached file holds (xs.flatMap parts) (xs.flatMap funcs) := by
  refine ⟨fun n member => ?_, fun f member => ?_⟩
  · obtain ⟨x, inside, member⟩ := List.mem_flatMap.mp member
    exact (h x inside).nodes n member
  · obtain ⟨x, inside, member⟩ := List.mem_flatMap.mp member
    exact (h x inside).funcs f member

end State.Reached

/-! ### Covering nodes -/

variable {α β : Type} {m : Resolver α} {ns ns' : List Node}

structure Covers (r : Regime file) (sc : ScopeId) (m : Resolver α) (ns : List Node) : Prop where
  run {s a s'} : r.Ready sc s → m s = .ok (a, s') → s.Run r.may s' ∧ ∀ n ∈ ns, s'.Noted file n

namespace Covers

theorem pure {a : α} : Covers r sc (pure a) [] := by
  refine ⟨fun {s a s'} _ run => ?_⟩
  cases run
  exact ⟨.refl _, by simp⟩

theorem bind {f : α → Resolver β} (first : Covers r sc m ns)
    (rest : ∀ a, Covers r sc (f a) ns') : Covers r sc (m >>= f) (ns ++ ns') := by
  refine ⟨fun {s a s'} ready run => ?_⟩
  obtain ⟨a, s₁, ran, run⟩ := bind_ok run
  obtain ⟨run₁, noted₁⟩ := first.run ready ran
  have ready₁ := ready.run run₁
  obtain ⟨run₂, noted₂⟩ := (rest a).run ready₁ run
  refine ⟨run₁.trans run₂, fun n member => ?_⟩
  rcases List.mem_append.mp member with member | member
  · exact Regime.noted ready₁.formed run₂ (noted₁ n member)
  · exact noted₂ n member

theorem mono (h : Covers r sc m ns) (fewer : ∀ n ∈ ns', n ∈ ns) : Covers r sc m ns' := by
  refine ⟨fun {s a s'} ready run => ?_⟩
  obtain ⟨run, noted⟩ := h.run ready run
  exact ⟨run, fun n member => noted n (fewer n member)⟩

theorem after {f : α → Resolver β} (first : Covers r sc m []) (rest : ∀ a, Covers r sc (f a) ns) :
    Covers r sc (m >>= f) ns := first.bind rest

theorem before {f : α → Resolver β} (first : Covers r sc m ns)
    (rest : ∀ a, Covers r sc (f a) []) : Covers r sc (m >>= f) ns := by
  simpa using first.bind rest

theorem map {f : α → β} (h : Covers r sc m ns) : Covers r sc (f <$> m) ns := by
  rw [map_eq_pure_bind]
  exact h.before fun _ => pure

theorem get : Covers r sc (get : Resolver State) [] := by
  refine ⟨fun {s a s'} _ run => ?_⟩
  cases run
  exact ⟨.refl _, by simp⟩

theorem forM {f : α → Resolver Unit} {xs : List α} {parts : α → List Node}
    (each : ∀ x ∈ xs, Covers r sc (f x) (parts x)) :
    Covers r sc (xs.forM f) (xs.flatMap parts) := by
  induction xs with
  | nil => exact pure
  | cons x xs ih =>
    refine (each x List.mem_cons_self).bind fun _ => ih ?_
    exact fun y member => each y (List.mem_cons_of_mem _ member)

theorem first_ok {f : α → Resolver β} (first : Covers r sc m ns) {s s' : State} {b : β}
    (ready : r.Ready sc s) (run : (m >>= f) s = .ok (b, s')) :
    ∃ a s₁, m s = .ok (a, s₁) ∧ r.Ready sc s₁ ∧ s.Run r.may s₁ ∧ (∀ n ∈ ns, s₁.Noted file n) ∧
      f a s₁ = .ok (b, s') := by
  obtain ⟨a, s₁, ran, run⟩ := bind_ok run
  obtain ⟨run₁, noted⟩ := first.run ready ran
  exact ⟨a, s₁, ran, ready.run run₁, run₁, noted, run⟩

end Covers

theorem change_covers {f : State → State} (c : Change) (same : ∀ s, f s = c.apply s)
    (allowed : ∀ s, r.Ready sc s → r.may s c) : Covers r sc (modify f) [] := by
  refine ⟨fun {s _ s'} ready run => ?_⟩
  cases run
  rw [same]
  exact ⟨.one (allowed s ready), by simp⟩

/-! ### Written types -/

/-- The written types among some nodes may be noted. -/
def Regime.Writes (r : Regime file) (pool : List Node) : Prop :=
  ∀ s t u, .type t ∈ pool → r.may s (.written t.span u)

variable {p : Place} {pool : List Node}

theorem noteType_covers (writes : r.Writes pool) {t : TypeExpr} {span : Span}
    (own : t.span = span) (inside : .type t ∈ pool) (u : Ty) : Covers r sc (noteType span u) [.type t] := by
  refine ⟨fun {s _ s'} _ run => ?_⟩
  cases run
  subst own
  refine ⟨.one (writes s t u inside), ?_⟩
  rintro n (_ | ⟨_, ⟨⟩⟩)
  exact Std.TreeMap.mem_insert_self

theorem namedType_covers (name : String) : Covers r sc (namedType p name) [] := by
  unfold namedType
  split
  · exact .pure
  · refine Covers.get.after fun s => ?_
    split
    · split <;> exact .pure
    · exact .pure

mutual

theorem typeExpr_covers (writes : r.Writes pool) : (t : TypeExpr) → (∀ n ∈ t.nodes, n ∈ pool) →
    Covers r sc (typeExpr p t) t.nodes
  | .tuple span elems stars, inside => by
    simp only [TypeExpr.nodes, List.mem_cons, forall_eq_or_imp] at inside ⊢
    refine ((typeExprs_covers writes elems inside.2).bind fun ts =>
      noteType_covers writes rfl inside.1 _).mono ?_
    simp only [List.mem_cons, List.mem_append]
    grind
  | .func span params none stars, inside => by
    simp only [TypeExpr.nodes, List.mem_cons, forall_eq_or_imp, List.append_nil] at inside ⊢
    refine ((typeExprs_covers writes params inside.2).bind fun ts =>
      Covers.pure.after fun r => noteType_covers writes rfl inside.1 _).mono ?_
    simp only [List.mem_cons, List.mem_append]
    grind
  | .func span params (some result) stars, inside => by
    simp only [TypeExpr.nodes, List.mem_cons, forall_eq_or_imp, List.mem_append] at inside ⊢
    refine ((typeExprs_covers writes params fun n h => inside.2 n (.inl h)).bind fun ts =>
      (typeExpr_covers writes result fun n h => inside.2 n (.inr h)).bind fun r =>
        noteType_covers writes rfl inside.1 _).mono ?_
    simp only [List.mem_cons, List.mem_append]
    grind
  | .named span name args stars, inside => by
    simp only [TypeExpr.nodes, List.mem_cons, forall_eq_or_imp] at inside ⊢
    refine ((namedType_covers name).after fun t => (typeExprs_covers writes args inside.2).bind fun ts =>
      noteType_covers writes rfl inside.1 _).mono ?_
    simp only [List.mem_cons, List.mem_append]
    grind

theorem typeExprs_covers (writes : r.Writes pool) : (ts : List TypeExpr) →
    (∀ n ∈ TypeExpr.nodesOf ts, n ∈ pool) → Covers r sc (typeExprs p ts) (TypeExpr.nodesOf ts)
  | [], _ => .pure
  | t :: ts, inside => by
    simp only [TypeExpr.nodesOf, List.mem_append] at inside ⊢
    refine (typeExpr_covers writes t fun n h => inside n (.inl h)).bind fun u => ?_
    exact (typeExprs_covers writes ts fun n h => inside n (.inr h)).before fun _ => .pure

end

end Resolution

end TastyLang
