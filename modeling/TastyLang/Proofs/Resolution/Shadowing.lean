import Mathlib.Data.Finset.Card
import TastyLang.Proofs.Evaluation
import TastyLang.Proofs.Resolution.Within

/-!
# Members and names around a class

The search for a member goes through all classes that a class inherits from, and it ends
(`State.Formed.member?_finds`). A name in a method refers to a member of the class itself whatever the
scopes around the class declare, but to an inherited one only if they do not declare the name
(`File.resolve_binds_member`).
-/

namespace TastyLang

open Relation

namespace Resolution

variable {table : Table} {file : File} {base s : State} {fits : Span → SymbolId → Prop} {name : String}
  {seen seen' seen'' : List SymbolId} {U : Finset SymbolId} {n : Nat} {c d id : SymbolId} {sc : ScopeId}

/-! ### A search without a result went through everything -/

/-- From the first list of classes to the second the search went through whatever is inherited from, and
no class that it came to has the member. -/
structure State.Sweeps (s : State) (name : String) (seen seen' : List SymbolId) : Prop where
  more : seen ⊆ seen'
  swept : ∀ e ∈ seen', e ∉ seen → s.own? e name = none ∧ ∀ d, s.Parent e d → d ∈ seen'

theorem State.Sweeps.refl (s : State) (name : String) (seen : List SymbolId) : s.Sweeps name seen seen :=
  ⟨List.Subset.refl _, fun _ inside outside => absurd inside outside⟩

theorem State.Sweeps.trans (h : s.Sweeps name seen seen') (h' : s.Sweeps name seen' seen'') :
    s.Sweeps name seen seen'' := by
  refine ⟨List.Subset.trans h.more h'.more, fun e inside outside => ?_⟩
  by_cases early : e ∈ seen'
  · obtain ⟨none, parents⟩ := h.swept e early outside
    exact ⟨none, fun d parent => h'.more (parents d parent)⟩
  · exact h'.swept e inside early

/-- A set of classes that no search leaves. -/
structure State.Holds (s : State) (U : Finset SymbolId) : Prop where
  opened : ∀ c ∈ U, ∃ m, (s.info.symbols.symbol c).members = some m
  listed : ∀ x ∈ s.classes, x.2 ∈ U

theorem card_sdiff_cons_lt (inside : c ∈ U) (fresh : c ∉ seen) :
    (U \ (c :: seen).toFinset).card < (U \ seen.toFinset).card := by
  refine Finset.card_lt_card (Finset.ssubset_iff_of_subset ?_ |>.mpr ⟨c, ?_, ?_⟩)
  · refine Finset.sdiff_subset_sdiff (Finset.Subset.refl _) ?_
    rw [List.toFinset_cons]
    exact Finset.subset_insert _ _
  · simp [inside, fresh]
  · simp

theorem card_sdiff_le (more : seen ⊆ seen') : (U \ seen'.toFinset).card ≤ (U \ seen.toFinset).card :=
  Finset.card_le_card (Finset.sdiff_subset_sdiff (Finset.Subset.refl _) fun _ member =>
    List.mem_toFinset.mpr (more (List.mem_toFinset.mp member)))

theorem searchBases_sweeps (holds : s.Holds U)
    (each : ∀ {seen : List SymbolId} {d : SymbolId}, d ∈ U → (U \ seen.toFinset).card < n →
      (s.searchMember name n seen d).2 = none →
        s.Sweeps name seen (s.searchMember name n seen d).1 ∧ d ∈ (s.searchMember name n seen d).1)
    {bases : List Ty} (few : (U \ seen.toFinset).card < n)
    (none : (s.searchBases name n (seen, none) bases).2 = none) :
    s.Sweeps name seen (s.searchBases name n (seen, Option.none) bases).1 ∧
      ∀ b ∈ bases, ∀ d, s.classes.lookup b.name = some d →
        d ∈ (s.searchBases name n (seen, Option.none) bases).1 := by
  induction bases generalizing seen with
  | nil => exact ⟨.refl s name seen, by simp⟩
  | cons b bases ih =>
    rw [searchBases_cons] at none ⊢
    cases named : s.classes.lookup b.name with
    | none =>
      rw [named] at none
      obtain ⟨sweeps, rest⟩ := ih few none
      refine ⟨sweeps, fun a member d found => ?_⟩
      rcases List.mem_cons.mp member with rfl | member
      · cases named.symm.trans found
      · exact rest a member d found
    | some e =>
      rw [named] at none
      dsimp only at none ⊢
      obtain ⟨before, after, same, -⟩ := List.lookup_eq_some_iff.mp named
      have inside : e ∈ U := holds.listed (b.name, e) (by simp [same])
      have first := each inside few
      cases searched : s.searchMember name n seen e with
      | mk visited result =>
        rw [searched] at none first
        cases result with
        | some f =>
          rw [searchBases_found] at none
          cases none
        | none =>
          obtain ⟨sweeps, here⟩ := first rfl
          obtain ⟨sweeps', rest⟩ := ih (Nat.lt_of_le_of_lt (card_sdiff_le sweeps.more) few) none
          refine ⟨sweeps.trans sweeps', fun a member d found => ?_⟩
          rcases List.mem_cons.mp member with rfl | member
          · cases named.symm.trans found
            exact sweeps'.more here
          · exact rest a member d found

theorem searchMember_sweeps (holds : s.Holds U) (inside : c ∈ U) (few : (U \ seen.toFinset).card < n)
    (none : (s.searchMember name n seen c).2 = none) :
    s.Sweeps name seen (s.searchMember name n seen c).1 ∧ c ∈ (s.searchMember name n seen c).1 := by
  induction n generalizing seen c with
  | zero => exact absurd few (Nat.not_lt_zero _)
  | succ n ih =>
    obtain ⟨m, members⟩ := holds.opened c inside
    rw [searchMember_succ members] at none ⊢
    by_cases again : c ∈ seen
    · rw [if_pos (List.contains_iff_mem.mpr again)]
      exact ⟨.refl s name seen, again⟩
    · have fresh : ¬ seen.contains c = true := fun h => again (List.contains_iff_mem.mp h)
      rw [if_neg fresh] at none ⊢
      cases own : s.own? c name with
      | some f =>
        rw [own] at none
        cases none
      | none =>
        rw [own] at none
        have fewer := Nat.lt_of_lt_of_le (card_sdiff_cons_lt inside again) (Nat.le_of_lt_succ few)
        obtain ⟨sweeps, parents⟩ := searchBases_sweeps holds (fun inside few => ih inside few) fewer none
        have here := sweeps.more List.mem_cons_self
        refine ⟨⟨fun e member => sweeps.more (List.mem_cons_of_mem _ member), fun e member outside => ?_⟩, here⟩
        by_cases same : e = c
        · subst same
          exact ⟨own, fun d ⟨b, base, named⟩ => parents b base d named⟩
        · exact sweeps.swept e member (by simp [same, outside])

/-! ### Members -/

theorem State.Formed.holds (formed : s.Formed file) (isClass : SymbolTable.IsClass s.info.symbols c) :
    s.Holds (insert c (s.classes.map Prod.snd).toFinset) := by
  refine ⟨fun e member => ?_, fun x listed => ?_⟩
  · rcases Finset.mem_insert.mp member with rfl | member
    · exact isClass.members
    · obtain ⟨x, listed, rfl⟩ := List.mem_map.mp (List.mem_toFinset.mp member)
      exact (formed.called x listed).members
  · exact Finset.mem_insert_of_mem (List.mem_toFinset.mpr (List.mem_map_of_mem listed))

theorem State.Formed.member?_finds (formed : s.Formed file) (isClass : SymbolTable.IsClass s.info.symbols c)
    (inherits : s.Inherits c d) (own : (s.own? d name).isSome) :
    ∃ id, s.member? c name = some id ∧ ∃ e, s.Inherits c e ∧ s.own? e name = some id := by
  cases found : s.member? c name with
  | some id => exact ⟨id, rfl, searchMember_sound _ found⟩
  | none =>
    have few : (insert c (s.classes.map Prod.snd).toFinset \ ([] : List SymbolId).toFinset).card <
        s.classes.length + 2 := by
      have small := Finset.card_insert_le c (s.classes.map Prod.snd).toFinset
      have listed := List.toFinset_card_le (s.classes.map Prod.snd)
      rw [List.length_map] at listed
      rw [List.toFinset_nil, Finset.sdiff_empty]
      omega
    obtain ⟨sweeps, here⟩ :=
      searchMember_sweeps (formed.holds isClass) (Finset.mem_insert_self c _) few found
    have reached : d ∈ (s.searchMember name (s.classes.length + 2) [] c).1 := by
      clear own
      induction inherits with
      | refl => exact here
      | tail _ parent ih => exact (sweeps.swept _ ih List.not_mem_nil).2 _ parent
    rw [(sweeps.swept d reached List.not_mem_nil).1] at own
    cases own

theorem member?_own {m : ScopeId} (members : (s.info.symbols.symbol c).members = some m)
    (own : s.own? c name = some id) : s.member? c name = some id := by
  rw [State.member?, searchMember_succ members, own]
  rfl

/-! ### Scopes around a class -/

/-- What the scopes around a scope declare, the nearest one first. -/
def State.outside? (s : State) (sc : ScopeId) (name : String) : Option SymbolId :=
  (s.info.symbols.scope sc).chain.tail.findSome? fun e => s.info.symbols.lookupLocal? e name

theorem State.Formed.reach?_member (formed : s.Formed file)
    (members : (s.info.symbols.symbol c).members = some sc) (found : s.member? c name = some id) :
    s.reach? sc (some c) name = some (((s.own? c name).or (s.outside? sc name)).getD id) := by
  have first := (formed.chains sc (formed.members c sc members)).first
  have own : s.own? c name = s.info.symbols.lookupLocal? sc name := by
    rw [State.own?, members]
    rfl
  have lookup : s.info.symbols.lookup? sc name = (s.own? c name).or (s.outside? sc name) := by
    rw [own, State.outside?, SymbolTable.lookup?]
    cases chain : (s.info.symbols.scope sc).chain with
    | nil =>
      rw [chain] at first
      cases first
    | cons e rest =>
      rw [chain] at first
      cases first
      rw [List.findSome?_cons, List.tail_cons]
      cases s.info.symbols.lookupLocal? sc name <;> rfl
  change ((s.info.symbols.lookup? sc name).or _).or _ = _
  rw [lookup, Option.bind_some, found]
  cases (s.own? c name).or (s.outside? sc name) <;> rfl

theorem State.Later.outside? (later : base.Later fits none s) (formed : base.Formed file)
    (inside : sc < base.info.symbols.scopes.size) (name : String) :
    s.outside? sc name = base.outside? sc name := by
  rw [State.outside?, State.outside?, later.table.chain sc inside]
  exact later.lookups formed
    (fun e member => (formed.chains sc inside).known e (List.mem_of_mem_tail member)) name

theorem State.Later.own? (later : base.Later fits none s) (formed : base.Formed file)
    (lt : c < base.info.symbols.symbols.size) (name : String) : s.own? c name = base.own? c name := by
  rw [State.own?, State.own?, (later.table.symbol c lt).members]
  cases members : (base.info.symbols.symbol c).members with
  | none => rfl
  | some m => exact later.table.lookupLocal? (formed.members c m members) (formed.known m) name

end Resolution

open Resolution

/-- What a text is read to, and the state after the passes over it. -/
def passed? (table : Table) (name src : String) : Option (File × State) := do
  let file ← (File.read table name src).toOption
  let (_, s) ← (passes table file {}).toOption
  return (file, s)

theorem passed?_some {table : Table} {name src : String} {file : File} {s : State}
    (h : passed? table name src = some (file, s)) :
    File.read table name src = .ok file ∧ passes table file {} = .ok ((), s) := by
  obtain ⟨_, read, h⟩ := Option.bind_eq_some_iff.mp h
  obtain ⟨_, run, h⟩ := Option.bind_eq_some_iff.mp h
  cases h
  exact ⟨toOption_eq_some read, toOption_eq_some run⟩

/-- The first mention of a name that is not declared around it. -/
def FuncDecl.mention? (f : FuncDecl) (x : String) : Option Mention :=
  f.mentions.find? fun m => m.name == x && !m.bound.contains x

theorem FuncDecl.mention?_some {f : FuncDecl} {x : String} {m : Mention} (h : f.mention? x = some m) :
    m ∈ f.mentions ∧ m.name = x ∧ m.name ∉ m.bound := by
  have here := List.find?_some h
  simp only [Bool.and_eq_true, beq_iff_eq, Bool.not_eq_true', List.contains_eq_mem,
    decide_eq_false_iff_not] at here
  obtain ⟨named, free⟩ := here
  exact ⟨List.mem_of_find?_eq_some h, named, named ▸ free⟩

/-- A name in a method that nothing in the method declares refers to the member of its class that the
search finds if the class itself declares it or no scope around the class does, and else to what the
nearest scope around the class declares. -/
theorem File.resolve_binds_member {table : Table} {name src : String} {file : File} {s : State}
    (read : File.read table name src = .ok file) (run : passes table file {} = .ok ((), s))
    {span : Span} {f : FuncDecl} (method : (span, f) ∈ file.methods) :
    ∃ c sc, s.info.classSymbol? span = some c ∧ (s.info.symbols.symbol c).members = some sc ∧
      ∀ m ∈ f.mentions, m.name ∉ m.bound → ∀ d, s.Inherits c d → (s.own? d m.name).isSome →
        ∃ id, s.member? c m.name = some id ∧ (∃ e, s.Inherits c e ∧ s.own? e m.name = some id) ∧
          ((s.own? c m.name).isSome ∨ s.outside? sc m.name = none → s.info.uses[m.span]? = some id) ∧
          ∀ o, s.own? c m.name = none → s.outside? sc m.name = some o →
            s.info.uses[m.span]? = some o := by
  obtain ⟨p, q, lies⟩ := File.read_lies read
  obtain ⟨s₁, s₂, passed⟩ := passes_passed (File.read_zoned read)
    (FuncsLie.listed lies.funcs).apart (.refl _) run
  have later : s₂.Later (File.Refers file s₂) none s := passed.later read
  have early : s₂.Formed file := passed.formed
  have formed : s.Formed file := passed.third.formed (resolving table file).legal early
  obtain ⟨c, sc, cls, members, stand⟩ := passed.method read method
  have isClass := early.classSymbol? cls
  have grown : s₂.Grows s := Regime.grows passed.third
  have cls' : s.info.classSymbol? span = some c := classSymbol?_mono grown cls
  have members' : (s.info.symbols.symbol c).members = some sc :=
    (later.table.symbol c isClass.known).members.trans members
  refine ⟨c, sc, cls', members', fun m member free d inherits own => ?_⟩
  obtain ⟨id, found, e, inherits', own'⟩ := formed.member?_finds (formed.classSymbol? cls') inherits own
  have used : s.info.uses[m.span]? = some (((s.own? c m.name).or (s.outside? sc m.name)).getD id) := by
    refine passed.mention read (Decl.methodsOf_funcs file.decls method) stand member free ?_
    rw [later.own? early isClass.known, later.outside? early (early.members c sc members)]
    refine early.reach?_member members ?_
    rw [← later.member? early isClass.known isClass.kind, found]
  refine ⟨id, found, ⟨e, inherits', own'⟩, fun first => ?_, fun o none outside => ?_⟩
  · rw [used]
    cases here : s.own? c m.name with
    | some i =>
      rw [member?_own members' here] at found
      exact found
    | none =>
      rw [here] at first
      rw [first.resolve_left (by simp)]
      rfl
  · rw [used, none, outside]
    rfl

/-- The file declares the name of an own member of the class, but not that of an inherited one. -/
def ownText : String := "class B {
    copy x: int;
}
copy y: int;
class D extends B {
    copy y: int;
    fn f() -> int { return x + y; }
}
"

theorem File.resolve_binds_member_of_own :
    ∃ file s, File.read Table.default "main.tasty" ownText = .ok file ∧
      passes Table.default file {} = .ok ((), s) ∧
      ∃ span f c, (span, f) ∈ file.methods ∧ s.info.classSymbol? span = some c ∧
        (∃ m ∈ f.mentions, m.name = "x" ∧ s.own? c "x" = none ∧ (s.member? c "x").isSome ∧
          s.info.uses[m.span]? = s.member? c "x") ∧
        ∃ m ∈ f.mentions, m.name = "y" ∧
          (s.info.symbols.lookupLocal? SymbolTable.global "y").isSome ∧
          (s.own? c "y").isSome ∧ s.info.uses[m.span]? = s.member? c "y" := by
  have found : (passed? Table.default "main.tasty" ownText).any (fun (file, s) =>
      file.methods.any fun (span, f) => (f.mention? "x").isSome && (f.mention? "y").isSome &&
        (s.info.classSymbol? span).any fun c => s.own? c "x" == none && (s.member? c "x").isSome &&
          (s.info.symbols.symbol c).members.any (fun sc => s.outside? sc "x" == none) &&
          (s.own? c "y").isSome && (s.info.symbols.lookupLocal? SymbolTable.global "y").isSome) = true := by
    rw [passed?, ownText, File.read_ofList]
    decide +kernel
  obtain ⟨⟨file, s⟩, steps, here⟩ := (Option.any_eq_true _ _).mp found
  obtain ⟨read, run⟩ := passed?_some steps
  simp only [List.any_eq_true, Bool.and_eq_true, Option.any_eq_true, beq_iff_eq,
    Option.isSome_iff_exists] at here
  obtain ⟨⟨span, f⟩, method, ⟨⟨m, mentioned⟩, ⟨m', mentioned'⟩⟩, c, cls, ⟨⟨⟨none, ⟨id, inherited⟩⟩,
    ⟨sc, members, outside⟩⟩, ⟨id', own⟩⟩, declared⟩ := here
  obtain ⟨c', sc', cls', members', binds⟩ := File.resolve_binds_member read run method
  cases cls.symm.trans cls'
  cases members.symm.trans members'
  obtain ⟨member, named, free⟩ := FuncDecl.mention?_some mentioned
  obtain ⟨member', named', free'⟩ := FuncDecl.mention?_some mentioned'
  have first := binds m member free
  have second := binds m' member' free'
  rw [named] at first
  rw [named'] at second
  obtain ⟨e, inherits, there⟩ := searchMember_sound _ inherited
  obtain ⟨i, found, -, used, -⟩ := first e inherits (by rw [there]; rfl)
  obtain ⟨i', found', -, used', -⟩ := second c .refl (by rw [own]; rfl)
  refine ⟨file, s, read, run, span, f, c, method, cls, ⟨m, member, named, none, ?_, ?_⟩,
    m', member', named', ?_, ?_, ?_⟩
  · rw [inherited]
    rfl
  · rw [found]
    exact used (.inr outside)
  · exact Option.isSome_iff_exists.mpr declared
  · rw [own]
    rfl
  · rw [found']
    exact used' (.inl (by rw [own]; rfl))

/-- The file declares the name of a member that the class inherits. -/
def inheritedText : String := "class B {
    copy x: int;
}
copy x: int;
class D extends B {
    fn f() -> int { return x; }
}
"

theorem inherited_member_hidden :
    ∃ file s, File.read Table.default "main.tasty" inheritedText = .ok file ∧
      passes Table.default file {} = .ok ((), s) ∧
      ∃ span f c d m o, (span, f) ∈ file.methods ∧ s.info.classSymbol? span = some c ∧
        m ∈ f.mentions ∧ m.name ∉ m.bound ∧ s.Inherits c d ∧ (s.own? d m.name).isSome ∧
        s.info.uses[m.span]? = some o ∧ s.info.symbols.lookupLocal? SymbolTable.global m.name = some o ∧
        s.member? c m.name ≠ some o := by
  have found : (passed? Table.default "main.tasty" inheritedText).any (fun (file, s) =>
      file.methods.any fun (span, f) => (f.mention? "x").any fun m =>
        (s.info.classSymbol? span).any fun c => (s.info.symbols.lookupLocal? SymbolTable.global "x").any fun o =>
          (s.member? c "x").any fun i => s.info.uses[m.span]? == some o && i != o) = true := by
    rw [passed?, inheritedText, File.read_ofList]
    decide +kernel
  obtain ⟨⟨file, s⟩, steps, here⟩ := (Option.any_eq_true _ _).mp found
  obtain ⟨read, run⟩ := passed?_some steps
  simp only [List.any_eq_true, Bool.and_eq_true, Option.any_eq_true, beq_iff_eq, bne_iff_ne] at here
  obtain ⟨⟨span, f⟩, method, m, mentioned, c, cls, o, declared, i, inherited, used, other⟩ := here
  obtain ⟨member, named, free⟩ := FuncDecl.mention?_some mentioned
  obtain ⟨d, inherits, own⟩ := searchMember_sound _ inherited
  refine ⟨file, s, read, run, span, f, c, d, m, o, method, cls, member, free, inherits, ?_, used, ?_, ?_⟩
  · rw [named, own]
    rfl
  · rw [named, declared]
  · rw [named, inherited]
    exact fun same => other (Option.some.inj same)

end TastyLang
