import TastyLang.Proofs.Resolution.Bodies
import TastyLang.Proofs.Resolution.Signing
import TastyLang.Proofs.Resolution.VisitedBodies

/-!
# The third pass visits

A function that is asked for is visited as a whole the first time, and it is finished then: all that its
parameters and its body hold is noted, it has a result, and no range stands where none may
(`enterFunc_steps`). The third pass goes over the values of a file and over all of its functions
(`bodies_visit`).
-/

namespace TastyLang.Resolution

variable {table : Table} {file : File} {s s' s'' : State} {own : List Key} {ns : List Node}
  {sc : ScopeId} {p : Place}

/-! ### Phases -/

theorem State.withPhase_waits {span span' : Span} {phase : Phase} {st : FuncState}
    (busy : phase ≠ .fresh) :
    (s.withPhase span phase).Waits span' st ↔ span' ≠ span ∧ s.Waits span' st := by
  constructor
  · rintro ⟨found, fresh⟩
    obtain ⟨st', was, ⟨other, rfl⟩ | ⟨same, rfl⟩⟩ := getElem?_modify_or found
    · exact ⟨other, was, fresh⟩
    · exact absurd fresh busy
  · rintro ⟨other, found, fresh⟩
    refine ⟨?_, fresh⟩
    change (s.funcs.modify span _)[span']? = _
    rw [Std.TreeMap.getElem?_modify, if_neg]
    · exact found
    · exact fun same => other (Std.LawfulEqOrd.eq_of_compare same).symm

theorem State.active_waits {span span' : Span} {st : FuncState} :
    (s.withPhase span .active).Waits span' st ↔ span' ≠ span ∧ s.Waits span' st :=
  withPhase_waits nofun

theorem State.done_waits {span span' : Span} {st : FuncState} :
    (s.withPhase span .done).Waits span' st ↔ span' ≠ span ∧ s.Waits span' st :=
  withPhase_waits nofun

theorem State.withPhase_reaches {span : Span} {phase : Phase}
    (may : (resolving table file).may s (.phase span phase)) :
    s.Reaches table file (s.withPhase span phase) :=
  ⟨.one may, Nat.le_refl _, fun _ _ => rfl, fun _ _ _ _ => .inl rfl⟩

theorem State.VisitedAll.withPhases {span span' : Span} {phase phase' : Phase} (formed : s'.Formed file)
    (start : (resolving table file).may s (.phase span phase))
    (stop : (resolving table file).may s' (.phase span' phase'))
    (h : (s.withPhase span phase).VisitedAll table file s' ns) :
    s.VisitedAll table file (s'.withPhase span' phase') ns := by
  refine (h.before (State.withPhase_reaches start) fun k _ => ?_).after formed
    (State.withPhase_reaches stop) fun k _ => ?_
  · cases k <;> rfl
  · cases k <;> rfl

/-! ### Functions on demand -/

theorem resolveFunc_visits (apart : Apart file) (n : Nat) (sc : ScopeId) (span : Span) :
    Visits table file sc [] [] (resolveFunc table n span) := by
  induction n generalizing sc span with
  | zero => exact .pure
  | succ n ih =>
    refine ⟨fun {s _ s'} opened run => ?_⟩
    rcases resolveFunc_ok run with ⟨rfl, -⟩ | ⟨st, s₁, found, fresh, entered, rfl⟩
    · exact .refl opened
    · have waits : s.Waits span st := ⟨found, fresh⟩
      obtain ⟨listed, own, known⟩ := opened.ready.formed.funcs span st found
      have start : (resolving table file).may s (.phase span .active) := ⟨trivial, nofun⟩
      have ready := opened.ready.run (.one start)
      have zone := opened.zoned.late _ listed
      have inner : (s.withPhase span .active).Open table file sc [] st.decl.late := by
        refine ⟨opened.zoned, ready, opened.rooted, zone, by simp,
          fun span' st' waits' k member => ⟨by simp, ?_⟩⟩
        obtain ⟨differ, waits'⟩ := State.active_waits.mp waits'
        exact Formed.zones opened.zoned opened.ready.formed waits'.1 found differ k member
      obtain ⟨steps, finished⟩ := enterFunc_steps ih listed inner known entered
      have formed := (ready.run steps.reaches.run).formed
      have stop : (resolving table file).may s₁ (.phase span .done) := by
        refine ⟨trivial, fun _ st' found' => ?_⟩
        obtain ⟨listed', own', -⟩ := formed.funcs span st' found'
        rw [apart _ listed' _ listed (own'.trans own.symm)]
        exact finished
      -- what is entered inside is entered by the whole step
      have inside : ∀ span' st', (s.withPhase span .active).Enters s₁ span' st' →
          s.Enters (s₁.withPhase span .done) span' st' := by
        rintro span' st' ⟨before, after⟩
        obtain ⟨-, before⟩ := State.active_waits.mp before
        exact ⟨before, fun waits => after (State.done_waits.mp waits).2⟩
      have entered : s.Enters (s₁.withPhase span .done) span st :=
        ⟨waits, fun waits => (State.done_waits.mp waits).1 rfl⟩
      have reaches := (State.withPhase_reaches start).trans
        (steps.reaches.trans (State.withPhase_reaches stop))
      refine ⟨reaches, steps.rooted, fun span' st' waits => ?_, fun span' active => ?_,
        fun k _ _ away => ?_, List.forall_mem_nil _, fun span' st' enters => ?_⟩
      · obtain ⟨-, waits⟩ := State.done_waits.mp waits
        exact (State.active_waits.mp (steps.waits span' st' waits)).2
      · rcases State.isActive_withPhase active with ⟨other, active⟩ | ⟨-, impossible⟩
        · rcases State.isActive_withPhase (steps.active span' active) with ⟨-, active⟩ | ⟨same, -⟩
          · exact active
          · exact absurd same other
        · cases impossible
      · exact steps.entry k (by simp) (away span st entered)
          fun span' st' enters => away span' st' (inside span' st' enters)
      · by_cases same : span' = span
        · subst same
          obtain rfl : st' = st := Option.some.inj (enters.1.1.symm.trans found)
          exact steps.visited.withPhases formed start stop
        · refine (steps.entered span' st' ⟨?_, fun waits => ?_⟩).withPhases formed start stop
          · exact State.active_waits.mpr ⟨same, enters.1⟩
          · exact enters.2 (State.done_waits.mpr ⟨same, waits⟩)

/-! ### Items -/

/-- The function does not wait any more. -/
def State.Entered (s : State) (f : FuncDecl) : Prop := ∀ st, ¬ s.Waits f.info.span st

theorem State.Entered.steps {f : FuncDecl} (h : s.Entered f) (steps : s.Steps table file own ns s') :
    s'.Entered f := fun st waits => h st (steps.waits _ st waits)

/-- A place where a function that is asked for has been entered then. -/
def Place.Finds (p : Place) : Prop :=
  ∀ (f : FuncDecl) s s', p.demand f.info.span s = .ok ((), s') → s'.Entered f

theorem resolveFunc_finds {n : Nat} {f : FuncDecl}
    (run : resolveFunc table (n + 1) f.info.span s = .ok ((), s')) : s'.Entered f := by
  intro st waits
  rcases resolveFunc_ok run with ⟨rfl, busy⟩ | ⟨_, s₁, -, -, -, rfl⟩
  · exact busy st waits.1 waits.2
  · exact (State.done_waits.mp waits).1 rfl

theorem forM_steps {α : Type} {f : α → Resolver Unit} {xs : List α} {parts : α → List Node}
    {funcs : α → List FuncDecl} {rangeless : α → Prop} {u : Unit}
    (opened : s.Open table file sc [] (xs.flatMap parts))
    (each : ∀ x ∈ xs, ∀ {s₁ s₂ : State}, s.Reaches table file s₁ →
      s₁.Open table file sc [] (parts x) → f x s₁ = .ok ((), s₂) →
      s₁.Steps table file [] (parts x) s₂ ∧ (∀ g ∈ funcs x, s₂.Entered g) ∧
        ((∀ g ∈ funcs x, g.Rangeless) → rangeless x))
    (run : xs.forM f s = .ok (u, s')) :
    s.Steps table file [] (xs.flatMap parts) s' ∧ (∀ g ∈ xs.flatMap funcs, s'.Entered g) ∧
      ((∀ g ∈ xs.flatMap funcs, g.Rangeless) → ∀ x ∈ xs, rangeless x) := by
  induction xs generalizing s with
  | nil =>
    cases run
    exact ⟨.refl opened, by simp⟩
  | cons x xs ih =>
    simp only [List.flatMap_cons] at opened ⊢
    obtain ⟨_, s₁, first, rest⟩ := bind_ok run
    obtain ⟨steps, here, fine⟩ := each x List.mem_cons_self (.refl s) opened.first first
    obtain ⟨steps', there, others⟩ := ih (opened.second steps) (fun y member _ _ before =>
      each y (List.mem_cons_of_mem _ member) (steps.reaches.trans before)) rest
    refine ⟨steps.trans opened steps', fun g member => ?_, fun all => ?_⟩
    · rcases List.mem_append.mp member with member | member
      · exact (here g member).steps steps'
      · exact there g member
    · exact List.forall_mem_cons.mpr ⟨fine fun g member => all g (List.mem_append_left _ member),
        others fun g member => all g (List.mem_append_right _ member)⟩

theorem funcs_visit (place : p.Enters table file) (finds : p.Finds) {fs : List FuncDecl} {u : Unit}
    (opened : s.Open table file sc [] []) (run : fs.forM (fun f => p.demand f.info.span) s = .ok (u, s')) :
    s.Steps table file [] [] s' ∧ ∀ f ∈ fs, s'.Entered f := by
  have none : fs.flatMap (fun _ => ([] : List Node)) = [] := List.flatMap_eq_nil_iff.mpr fun _ _ => rfl
  have own : fs.flatMap (fun f => [f]) = fs := by simp
  have each : ∀ f ∈ fs, ∀ {s₁ s₂ : State}, s.Reaches table file s₁ → s₁.Open table file sc [] [] →
      p.demand f.info.span s₁ = .ok ((), s₂) →
      s₁.Steps table file [] [] s₂ ∧ (∀ g ∈ [f], s₂.Entered g) ∧ ((∀ g ∈ [f], g.Rangeless) → True) := by
    intro f _ s₁ s₂ _ opened₁ turn
    refine ⟨(place.demand sc f.info.span).run opened₁ turn, fun g member => ?_, fun _ => trivial⟩
    obtain rfl := List.mem_singleton.mp member
    exact finds g _ _ turn
  obtain ⟨steps, entered, -⟩ := forM_steps (none.symm ▸ opened) each run
  rw [none] at steps
  rw [own] at entered
  exact ⟨steps, entered⟩

theorem enumBody_visits (place : p.Enters table file) {d : EnumDecl} {u : Unit}
    (inside : ∀ n ∈ d.members.flatMap fun m => nodesIn Expr.nodes m.value, n ∈ file.late)
    (opened : s.Open table file p.scope [] (d.members.flatMap fun m => nodesIn Expr.nodes m.value))
    (run : enumBody p d s = .ok (u, s')) :
    s.Steps table file [] (d.members.flatMap fun m => nodesIn Expr.nodes m.value) s' ∧
      ∀ m ∈ d.members, Expr.RangelessIn m.value := by
  obtain ⟨_, _, read, run⟩ := bind_ok run
  cases read
  dsimp only at run
  generalize found : ((s.info.symbols.lookupLocal? p.scope d.name).bind fun id =>
    (s.info.symbols.symbol id).members) = members at run
  have lt : members.getD p.scope < s.info.symbols.scopes.size := by
    cases members with
    | none => exact opened.ready.inside
    | some m =>
      obtain ⟨id, -, same⟩ := Option.bind_eq_some_iff.mp found
      exact opened.ready.formed.members id m same
  refine ⟨Visits.run (.forM fun m member => ?_) (opened.scoped lt) run, fun m member v given => ?_⟩
  · have late : ∀ n ∈ nodesIn Expr.nodes m.value, n ∈ file.late :=
      fun n h => inside n (List.mem_flatMap.mpr ⟨m, member, h⟩)
    split
    · next v given =>
      rw [given] at late ⊢
      exact (expr_visits (place.scoped _) v late).discard
    · next none =>
      rw [none]
      exact .pure
  · obtain ⟨s₁, s₂, turn⟩ := forM_ok run member
    rw [given] at turn
    obtain ⟨_, ran⟩ := discard_ok turn
    exact expr_rangeless v ran

theorem itemBody_visits (place : p.Enters table file) (finds : p.Finds) {i : Item}
    (stands : Item.Stands s i) (inside : ∀ n ∈ i.late, n ∈ file.late)
    (opened : s.Open table file p.scope [] i.values) (run : itemBody p i s = .ok ((), s')) :
    s.Steps table file [] i.values s' ∧ (∀ f ∈ i.funcs, s'.Entered f) ∧
      ((∀ f ∈ i.funcs, f.Rangeless) → i.Rangeless) := by
  cases i with
  | var d =>
    obtain ⟨id, found⟩ := mem_iff_found.mp stands
    obtain ⟨lt, kind⟩ := opened.ready.formed.vars _ _ found
    obtain ⟨-, own⟩ := opened.rooted _ _ found
    obtain ⟨_, _, read, run⟩ := bind_ok run
    cases read
    rw [found] at run
    refine ⟨?_, List.forall_mem_nil _, fun _ => varValue_rangeless run⟩
    have node : .var d ∈ file.nodes := File.late_subset (inside _ List.mem_cons_self)
    have values := fun n h => inside n (List.mem_cons_of_mem _ h)
    rw [Item.values] at opened ⊢
    cases written : d.type with
    | some te =>
      rw [written] at opened
      refine (varValue_steps place node values opened lt kind own (fun none => ?_) run).1
      cases written.symm.trans none
    | none =>
      rw [written] at opened
      have inner : s.Open table file p.scope [.var d.info.span] (nodesIn Expr.nodes d.value) :=
        opened.parts rfl
      obtain ⟨steps, inferred⟩ := varValue_steps place node values inner lt kind own
        (fun _ => List.mem_singleton_self _) run
      obtain ⟨carries, noted⟩ := inferred written
      have firm := steps.reaches.firm
      have keys := keys_of_var d
      rw [written] at keys
      exact steps.node rfl keys ⟨id, noted.trans found, Nat.lt_of_lt_of_le lt firm.size,
        (firm.origin id lt).trans own, carries⟩ ⟨id, noted.trans found, carries.typed⟩
  | func f =>
    refine ⟨(place.demand p.scope f.info.span).run opened run, fun g member => ?_,
      fun fine => fine f (List.mem_singleton_self f)⟩
    obtain rfl := List.mem_singleton.mp member
    exact finds g _ _ run
  | enum d =>
    obtain ⟨steps, fine⟩ := enumBody_visits place inside opened run
    exact ⟨steps, List.forall_mem_nil _, fun _ => fine⟩
  | inject info text =>
    cases run
    exact ⟨.refl opened, List.forall_mem_nil _, fun _ => trivial⟩

theorem items_visit (place : p.Enters table file) (finds : p.Finds) {items : List Item} {u : Unit}
    (stands : ∀ i ∈ items, Item.Stands s i) (inside : ∀ n ∈ items.flatMap Item.late, n ∈ file.late)
    (opened : s.Open table file p.scope [] (items.flatMap Item.values))
    (run : items.forM (itemBody p) s = .ok (u, s')) :
    s.Steps table file [] (items.flatMap Item.values) s' ∧
      (∀ f ∈ items.flatMap Item.funcs, s'.Entered f) ∧
      ((∀ f ∈ items.flatMap Item.funcs, f.Rangeless) → ∀ i ∈ items, i.Rangeless) := by
  refine forM_steps opened (fun i member _ _ before opened₁ turn => ?_) run
  refine itemBody_visits place finds ((stands i member).mono (Regime.grows before.run)) ?_ opened₁ turn
  exact fun n h => inside n (List.mem_flatMap.mpr ⟨i, member, h⟩)

/-! ### Declarations -/

mutual

theorem body_visits {p : Place} (place : p.Enters table file) (finds : p.Finds) {s s' : State}
    {u : Unit} : (d : Decl) → Decl.Stands s p.scope d → (∀ n ∈ d.late, n ∈ file.late) →
    s.Open table file p.scope [] d.values → body p d s = .ok (u, s') →
    s.Steps table file [] d.values s' ∧ (∀ f ∈ d.funcs, s'.Entered f) ∧
      ((∀ f ∈ d.funcs, f.Rangeless) → d.Rangeless)
  | .item _, stands, inside, opened, run => itemBody_visits place finds stands inside opened run
  | .includes _ _ _ _, _, _, opened, run | .assume _ _ _, _, _, opened, run
  | .attributeDef _ _ _ _, _, _, opened, run => by
    cases run
    exact ⟨.refl opened, fun f member => (nomatch member), fun _ => trivial⟩
  | .scope _ _ ds, stands, inside, opened, run => by
    obtain ⟨m, s₁, found, rest⟩ := bind_ok run
    obtain ⟨rfl, lt, stand⟩ :=
      namespaceScope_stands opened.ready.formed opened.ready.inside stands found
    exact bodies_visit (place.scoped m) finds ds stand inside (opened.scoped lt) rest
  | .cls _ _ _ items, stands, inside, opened, run => by
    obtain ⟨_, _, read, run⟩ := bind_ok run
    cases read
    obtain ⟨id, found⟩ := Option.isSome_iff_exists.mp stands.1
    rw [found] at run
    obtain ⟨_, _, read, run⟩ := bind_ok run
    cases read
    obtain ⟨m, members⟩ := (opened.ready.formed.classSymbol? found).members
    rw [members] at run
    refine items_visit (place.scoped m) finds stands.2 inside (opened.scoped ?_) run
    exact opened.ready.formed.members id m members
  | .abstraction _ _ _ fs, _, _, opened, run | .refurbish _ _ fs, _, _, opened, run => by
    obtain ⟨steps, entered⟩ := funcs_visit place finds opened run
    exact ⟨steps, entered, id⟩

theorem bodies_visit {p : Place} (place : p.Enters table file) (finds : p.Finds) {s s' : State}
    {u : Unit} : (ds : List Decl) → Decl.StandAll s p.scope ds →
    (∀ n ∈ Decl.lateOf ds, n ∈ file.late) → s.Open table file p.scope [] (Decl.valuesOf ds) →
    bodies p ds s = .ok (u, s') →
    s.Steps table file [] (Decl.valuesOf ds) s' ∧ (∀ f ∈ Decl.funcsOf ds, s'.Entered f) ∧
      ((∀ f ∈ Decl.funcsOf ds, f.Rangeless) → Decl.RangelessAll ds)
  | [], _, _, opened, run => by
    cases run
    exact ⟨.refl opened, fun f member => (nomatch member), fun _ => trivial⟩
  | d :: ds, stands, inside, opened, run => by
    obtain ⟨_, s₁, ran, run⟩ := bind_ok run
    rw [Decl.valuesOf] at opened ⊢
    obtain ⟨steps, here, fine⟩ := body_visits place finds d stands.1
      (fun n h => inside n (List.mem_append_left _ h)) opened.first ran
    have stand := Decl.StandAll.mono opened.ready.formed (Regime.grows steps.reaches.run) _
      opened.ready.inside stands.2
    obtain ⟨steps', there, others⟩ := bodies_visit place finds ds stand
      (fun n h => inside n (List.mem_append_right _ h)) (opened.second steps) run
    refine ⟨steps.trans opened steps', fun f member => ?_, fun all =>
      ⟨fine fun f member => all f (List.mem_append_left _ member),
        others fun f member => all f (List.mem_append_right _ member)⟩⟩
    rcases List.mem_append.mp member with member | member
    · exact (here f member).steps steps'
    · exact there f member

end

end TastyLang.Resolution

