import TastyLang.Proofs.Reading.Stretches
import TastyLang.Proofs.Resolution.Finishing
import TastyLang.Proofs.Resolution.Granting
import TastyLang.Proofs.Resolution.Openings

/-!
# All passes

Together with the first two passes the third notes all nodes of a file: it visits every value, it finishes
every function (`Passed.finished`), and it leaves ranges nowhere but where loops iterate over them.
-/

namespace TastyLang

namespace Resolution

variable {table : Table} {file : File} {s s' : State} {p : Place}

/-! ### Assumed names -/

mutual

theorem Decl.Stands.assumes {name : String} (dotted : '.' ∈ name.toList) : (d : Decl) →
    {sc : ScopeId} → Decl.Stands s sc d → name ∈ d.assumes → ∃ id, (name, id) ∈ s.assumed
  | .assume _ _ _, _, stands, member => List.mem_singleton.mp member ▸ stands <|
    List.mem_singleton.mp member ▸ dotted
  | .scope _ _ ds, _, ⟨_, _, _, _, _, stand, _⟩, member =>
    Decl.StandAll.assumes dotted ds stand member
  | .item _, _, _, member | .cls _ _ _ _, _, _, member | .abstraction _ _ _ _, _, _, member
  | .refurbish _ _ _, _, _, member | .includes _ _ _ _, _, _, member
  | .attributeDef _ _ _ _, _, _, member => by cases member

theorem Decl.StandAll.assumes {name : String} (dotted : '.' ∈ name.toList) : (ds : List Decl) →
    {sc : ScopeId} → Decl.StandAll s sc ds → name ∈ Decl.assumesOf ds →
    ∃ id, (name, id) ∈ s.assumed
  | d :: ds, _, stands, member => by
    rcases List.mem_append.mp member with member | member
    · exact Decl.Stands.assumes dotted d stands.1 member
    · exact Decl.StandAll.assumes dotted ds stands.2 member

end

/-! ### All passes -/

/-- The place where a file starts. -/
def outermost (table : Table) : Place :=
  { table, scope := SymbolTable.global, demand := fun _ => pure () }

/-- The states after the first two passes over the declarations of a file, in some order. -/
structure Prepared (table : Table) (file : File) (ds : List Decl) (s₁ s₂ : State) : Prop where
  declared : declareDecls SymbolTable.global ds {} = .ok ((), s₁)
  signed : signatures (outermost table) ds s₁ = .ok ((), s₂)
  first : Leading file {} s₁
  stand : Decl.StandAll s₁ SymbolTable.global ds
  bared : s₁.Bared file
  second : s₁.Run (signing file file.early true).may s₂
  fresh : s₂.Fresh
  rooted : s₂.Rooted
  relies : s₂.Prepared file
  types : s₂.Reached file State.Signed file.early file.funcs

/-- What the third pass leaves: the values were noted, they and all that the functions hold were visited,
and nothing else was noted. -/
structure State.Ended (table : Table) (file : File) (s s' : State) : Prop where
  reaches : s.Reaches table file s'
  rooted : s'.Rooted
  noted : ∀ n ∈ file.values, s'.Noted file n
  values : ∀ n ∈ file.values, s.Visited table file s' n
  late : ∀ f ∈ file.funcs, ∀ n ∈ f.late, s.Visited table file s' n
  entry : ∀ k ∉ keysOf file.values, (∀ f ∈ file.funcs, k ∉ keysOf f.late) → s'.entry k = s.entry k

/-- The states after each of the passes over the declarations of a file, in some order. -/
structure Passed (table : Table) (file : File) (ds : List Decl) (s₁ s₂ s : State) : Prop extends
    Prepared table file ds s₁ s₂ where
  ran : bodies { outermost table with demand := resolveFunc table (s₂.funcs.size + 1) } ds s₂ =
    .ok ((), s)
  ended : s₂.Ended table file s
  finished : ∀ f ∈ file.funcs, s.Finished file f
  rangeless : Decl.RangelessAll ds

theorem Prepared.formed {ds : List Decl} {s₁ s₂ : State} (prepared : Prepared table file ds s₁ s₂) :
    s₂.Formed file :=
  prepared.second.formed (signing file file.early true).legal prepared.first.formed

theorem Prepared.ready {ds : List Decl} {s₁ s₂ : State} (prepared : Prepared table file ds s₁ s₂) :
    (resolving table file).Ready SymbolTable.global s₂ :=
  ⟨prepared.formed, prepared.relies, prepared.formed.root⟩

theorem Passed.third {ds : List Decl} {s₁ s₂ : State} (passed : Passed table file ds s₁ s₂ s) :
    s₂.Run (resolving table file).may s := passed.ended.reaches.run

theorem resolve_ok {info : Info} (run : file.resolve table = .ok info) :
    ∃ s, passes table file {} = .ok ((), s) ∧ s.info = info := by
  change (passes table file {} >>= fun r => pure r.2.info) = _ at run
  cases done : passes table file {} with
  | error e =>
    rw [done] at run
    cases run
  | ok r =>
    rw [done] at run
    cases run
    exact ⟨r.2, rfl, rfl⟩

theorem mem_early {ds : List Decl} (perm : ds.Perm file.decls) (n : Node) :
    n ∈ Decl.earlyOf ds ↔ n ∈ file.early := by
  rw [Decl.earlyOf_eq, (perm.flatMap_right _).mem_iff, ← Decl.earlyOf_eq]
  rfl

theorem mem_funcs {ds : List Decl} (perm : ds.Perm file.decls) (f : FuncDecl) :
    f ∈ Decl.funcsOf ds ↔ f ∈ file.funcs := by
  rw [Decl.funcsOf_eq, (perm.flatMap_right _).mem_iff, ← Decl.funcsOf_eq]
  rfl

/-- After the first pass the namespaces without members are those that the file assumes. -/
theorem declareDecls_bared {ds : List Decl} {s₁ : State} (inside : ∀ n ∈ Decl.nodesOf ds, n ∈ file.nodes)
    (declared : declareDecls SymbolTable.global ds {} = .ok ((), s₁)) : s₁.Bared file := by
  intro sc id bare
  have bares := declareDecls_bares State.charted_initial .root bares_initial ds declared
  obtain ⟨π, -, assumed⟩ := bares.listed sc id bare
  obtain ⟨info, listed⟩ := Decl.openingsOf_assume ds (by simpa using assumed)
  exact ⟨info, inside _ listed⟩

theorem outermost_attached (table : Table) (ds : List Decl) : (outermost table).Attached file ds :=
  fun bare => by cases bare

theorem signatures_prepared {ds : List Decl} (perm : ds.Perm file.decls) {s₁ s₂ : State}
    (declared : declareDecls SymbolTable.global ds {} = .ok ((), s₁))
    (signed : signatures (outermost table) ds s₁ = .ok ((), s₂)) : Prepared table file ds s₁ s₂ := by
  have inside : ∀ n, n ∈ Decl.nodesOf ds → n ∈ file.nodes := by
    intro n h
    rw [Decl.nodesOf_eq, (perm.flatMap_right _).mem_iff, ← Decl.nodesOf_eq] at h
    exact List.mem_cons_of_mem _ h
  have early := mem_early perm
  have funcs := mem_funcs perm
  have assumes : ∀ name, name ∈ Decl.assumesOf ds ↔ name ∈ Decl.assumesOf file.decls := by
    intro name
    rw [Decl.assumesOf_eq, (perm.flatMap_right _).mem_iff, ← Decl.assumesOf_eq]
  obtain ⟨first, stand, owns⟩ := declareDecls_leads (State.formed_initial file) Nat.zero_lt_one
    ds inside (fun f h => (funcs f).mp h) (fun name h => (assumes name).mp h) declared
  have bared := declareDecls_bared inside declared
  obtain ⟨second, types⟩ : s₁.Run (signing file file.early true).may s₂ ∧ _ :=
    signatures_signs (p := outermost table) ⟨first.formed, bared, first.formed.root⟩ ds inside
      (fun n h => (early n).mp h) (fun f h => (funcs f).mp h) (outermost_attached table ds) stand signed
  have grown₂ : s₁.Grows s₂ := Regime.grows second
  have lays := (declareDecls_lay SymbolTable.global ds).run declared
  have rooted := signing_rooted second (lays.rooted fun span id found => by simp at found)
  have relies : s₂.Prepared file := by
    refine ⟨fun f member => (types.funcs f ((funcs f).mpr member)).params,
      fun d member name own => ?_, fun full known => ?_⟩
    · exact (owns d (perm.mem_iff.mpr member) name own).mono grown₂ first.formed.root
    · obtain ⟨id, found⟩ :=
        Decl.StandAll.assumes known.1 ds stand ((assumes full).mpr known.2)
      exact ⟨id, grown₂.assumed.subset found⟩
  have reached : s₂.Reached file State.Signed file.early file.funcs :=
    ⟨fun n h => types.nodes n ((early n).mpr h), fun f h => types.funcs f ((funcs f).mpr h)⟩
  exact ⟨declared, signed, first, stand, bared, second,
    signing_fresh second (first.fresh ⟨by simp, by simp⟩), rooted, relies, reached⟩

theorem outermost_enters (apart : Apart file) (n : Nat) :
    Place.Enters table file { outermost table with demand := resolveFunc table n } :=
  ⟨rfl, fun sc span => resolveFunc_visits apart n sc span⟩

theorem Prepared.open {ds : List Decl} {s₁ s₂ : State} (prepared : Prepared table file ds s₁ s₂)
    (perm : ds.Perm file.decls) (zoned : file.Zoned) :
    s₂.Open table file SymbolTable.global [] (Decl.valuesOf ds) := by
  have values : (Decl.valuesOf ds).Perm file.values := by
    rw [Decl.valuesOf_eq, File.values, Decl.valuesOf_eq]
    exact perm.flatMap_right _
  have keys : (keysOf (Decl.valuesOf ds)).Perm (keysOf file.values) := values.filterMap _
  refine ⟨zoned, prepared.ready, prepared.rooted, keys.nodup_iff.mpr zoned.values, by simp,
    fun span st waits k member => ⟨by simp, fun inside => ?_⟩⟩
  exact zoned.outside _ (prepared.formed.funcs span st waits.1).1 k member (keys.mem_iff.mp inside)

theorem passes_passed {ds : List Decl} (zoned : file.Zoned) (apart : Apart file)
    (perm : ds.Perm file.decls) {s : State}
    (run : passes table { file with decls := ds } {} = .ok ((), s)) :
    ∃ s₁ s₂, Passed table file ds s₁ s₂ s := by
  have funcs := mem_funcs perm
  have late : ∀ n ∈ Decl.lateOf ds, n ∈ file.late := fun n member => by
    rw [File.late, Decl.lateOf_eq]
    rw [Decl.lateOf_eq] at member
    exact (perm.flatMap_right _).mem_iff.mp member
  have values : ∀ n, n ∈ Decl.valuesOf ds ↔ n ∈ file.values := fun n => by
    rw [Decl.valuesOf_eq, File.values, Decl.valuesOf_eq]
    exact (perm.flatMap_right _).mem_iff
  obtain ⟨_, s₁, declared, run⟩ := bind_ok run
  obtain ⟨_, s₂, signed, run⟩ := bind_ok run
  obtain ⟨_, _, read, run⟩ := bind_ok run
  cases read
  have prepared : Prepared table file ds s₁ s₂ := signatures_prepared perm declared signed
  have ran : bodies { outermost table with demand := resolveFunc table (s₂.funcs.size + 1) } ds s₂ =
      .ok ((), s) := run
  obtain ⟨steps, entered, fine⟩ := bodies_visit (outermost_enters apart _)
    (fun f s s' => resolveFunc_finds) ds
    (Decl.StandAll.mono prepared.first.formed (Regime.grows prepared.second) ds
      prepared.first.formed.root prepared.stand) late (prepared.open perm zoned) ran
  -- a function of the file waits before the pass, and after it neither waits nor is being resolved
  have waits : ∀ f ∈ file.funcs, ∃ st, s₂.Waits f.info.span st ∧ st.decl = f := by
    intro f member
    obtain ⟨st, found⟩ := mem_iff_found.mp (prepared.types.funcs f member).noted
    obtain ⟨listed, own, -⟩ := prepared.formed.funcs _ st found
    exact ⟨st, ⟨found, prepared.fresh.funcs _ st found⟩, apart _ listed _ member own⟩
  have settled : s.Settled file := by
    refine State.Settled.run (fun span st found done => ?_) prepared.formed steps.reaches.run
    rw [prepared.fresh.funcs span st found] at done
    cases done
  have formed := (prepared.ready.run steps.reaches.run).formed
  have finished : ∀ f ∈ file.funcs, s.Finished file f := by
    intro f member
    obtain ⟨st, found⟩ := mem_iff_found.mp
      ((Regime.grows steps.reaches.run).funcs _ (prepared.types.funcs f member).noted)
    obtain ⟨listed, own, -⟩ := formed.funcs _ st found
    obtain rfl := apart _ listed _ member own
    cases phase : st.phase with
    | fresh => exact absurd ⟨found, phase⟩ (entered _ ((funcs _).mpr member) st)
    | active =>
      obtain ⟨st', found', phase'⟩ := steps.active _ ⟨st, found, phase⟩
      rw [prepared.fresh.funcs _ st' found'] at phase'
      cases phase'
    | done => exact settled _ st found phase
  have ended : s₂.Ended table file s := by
    refine ⟨steps.reaches, steps.rooted, fun n member => (steps.visited n ((values n).mpr member)).2.2,
      fun n member => (steps.visited n ((values n).mpr member)).2.1, fun f member n late => ?_,
      fun k value late => ?_⟩
    · obtain ⟨st, waits, rfl⟩ := waits f member
      exact (steps.entered _ st ⟨waits, entered _ ((funcs _).mpr member) st⟩ n late).2.1
    · refine steps.entry k (by simp) (fun inside => ?_) fun span st enters => ?_
      · obtain ⟨n, member, key⟩ := mem_keysOf.mp inside
        exact value (mem_keysOf.mpr ⟨n, (values n).mp member, key⟩)
      · exact late _ (prepared.formed.funcs span st enters.1.1).1
  exact ⟨s₁, s₂, { prepared with
    ran, ended, finished, rangeless := fine fun f member => (finished f ((funcs f).mp member)).rangeless }⟩

end Resolution

theorem File.read_passed {table : Table} {name src : String} {file : File} {info : Info}
    (read : File.read table name src = .ok file) (resolved : file.resolve table = .ok info) :
    ∃ s₁ s₂ s, Resolution.Passed table file file.decls s₁ s₂ s ∧ s.info = info := by
  obtain ⟨p, q, lies⟩ := File.read_lies read
  obtain ⟨s, run, same⟩ := Resolution.resolve_ok resolved
  obtain ⟨s₁, s₂, passed⟩ :=
    Resolution.passes_passed (File.read_zoned read) (Resolution.FuncsLie.listed lies.funcs).apart (.refl _) run
  exact ⟨s₁, s₂, s, passed, same⟩

end TastyLang
