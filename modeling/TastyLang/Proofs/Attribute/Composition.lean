import Mathlib.Data.List.Nodup
import Mathlib.Data.List.Perm.Subperm
import TastyLang.Attribute.Expansion
import TastyLang.Proofs.Graph.Cycles
import TastyLang.Proofs.Outcome

/-!
# Attributes made of attributes

An attribute composes those that the directives of its definition name (`Composes`). Expanding a use
follows these names, and the attributes that are open form a chain without repetitions (`Opened`),
so that there are never more open than defined. `expand_iff` says when a use can be expanded and
what the path of a cycle is; `File.expand_iff` says the same for all uses of a file.
-/

namespace TastyLang

namespace Attribute

open Relation

variable {defs : List Definition} {u v : AttributeUse} {env : Env} {stack : List String}
  {name : String} {n : Nat}

/-- What a name that is no built-in directive is defined as. The last definition of a name counts. -/
def definition? (defs : List Definition) (name : String) : Option Definition :=
  if (Directive.ofName? name).isSome then none else defs.reverse.find? (·.name == name)

/-- The definition of `a` has a directive of the name `b`. -/
def Composes (defs : List Definition) (a b : String) : Prop :=
  ∃ d, definition? defs a = some d ∧ b ∈ d.directives.map (·.name)

/-- Expanding `u` expands `v`, a directive of its definition. -/
def Applies (defs : List Definition) (u v : AttributeUse) : Prop :=
  ∃ d, definition? defs u.name = some d ∧ v ∈ d.directives

/-- A built-in directive, or the name of a definition. -/
def Known (defs : List Definition) (name : String) : Prop :=
  (∃ d, Directive.ofName? name = some d) ∨ ∃ d ∈ defs, d.name = name

/-- The least and the largest number of arguments of a known attribute. -/
def arity? (defs : List Definition) (name : String) : Option (Nat × Nat) :=
  match Directive.ofName? name with
  | some d => some d.arity
  | none => (definition? defs name).map fun d => (d.params.length, d.params.length)

/-- The number of arguments is right, if there is a right one. -/
def Fits (defs : List Definition) (u : AttributeUse) : Prop :=
  ∀ r, arity? defs u.name = some r → r.1 ≤ u.args.length ∧ u.args.length ≤ r.2

theorem Applies.composes (h : Applies defs u v) : Composes defs u.name v.name := by
  obtain ⟨d, found, member⟩ := h
  exact ⟨d, found, List.mem_map_of_mem member⟩

theorem Composes.applies (h : Composes defs u.name name) : ∃ v, Applies defs u v ∧ v.name = name := by
  obtain ⟨d, found, member⟩ := h
  obtain ⟨v, inside, rfl⟩ := List.mem_map.mp member
  exact ⟨v, ⟨d, found, inside⟩, rfl⟩

theorem definition?_some {d : Definition} (found : definition? defs name = some d) :
    Directive.ofName? name = none ∧ d ∈ defs ∧ d.name = name := by
  rw [definition?] at found
  split at found
  · cases found
  · next custom =>
    refine ⟨by simpa using custom, ?_, by simpa using List.find?_some found⟩
    exact List.mem_reverse.mp (List.mem_of_find?_eq_some found)

theorem arityFault?_eq_none {low high got : Nat} :
    arityFault? name low high got = none ↔ low ≤ got ∧ got ≤ high := by
  rw [arityFault?]
  split
  · next fits => simpa using fits
  · next fault =>
    split <;> simpa using fault

theorem arityFault?_ne_cycle {low high got : Nat} {x : String} :
    arityFault? name low high got ≠ some (.cycle x) := by
  rw [arityFault?]
  repeat' split
  all_goals simp

/-- What a use can come to: it has a fault of its own, it is a built-in directive, its attribute is
open already (or the steps are used up), or its directives are expanded. -/
theorem expand_cases (defs : List Definition) (n : Nat) (env : Env) (stack : List String)
    (u : AttributeUse) :
    (¬ (Known defs u.name ∧ Fits defs u) ∧ ∃ e, expand defs n env stack u = .error e ∧
      ∀ x, e.cause ≠ .cycle x) ∨
    (Fits defs u ∧ ∃ d, Directive.ofName? u.name = some d ∧
      expand defs n env stack u = .ok (d.effects (u.args.map (bindArg · env)) env)) ∨
    Fits defs u ∧ ∃ d, definition? defs u.name = some d ∧
      ((u.name ∈ stack ∨ n = 0) ∧ expand defs n env stack u =
          .error ⟨.cycle u.name, u.span.start, stack ++ [u.name]⟩ ∨
        u.name ∉ stack ∧ ∃ m, n = m + 1 ∧ expand defs n env stack u =
          (do
            let fxs ← d.directives.mapM (expand defs m
              (binding d.params (u.args.map (bindArg · env))) (stack ++ [u.name]))
            return fxs.foldl Effects.union {})) := by
  unfold expand
  dsimp only
  cases builtin : Directive.ofName? u.name with
  | some d =>
    have arity : arity? defs u.name = some d.arity := by rw [arity?, builtin]
    dsimp only
    cases fault : arityFault? u.name d.arity.1 d.arity.2 (u.args.map (bindArg · env)).length with
    | none =>
      rw [List.length_map, arityFault?_eq_none] at fault
      exact .inr (.inl ⟨fun r found => Option.some.inj (arity.symm.trans found) ▸ fault, d, rfl, rfl⟩)
    | some cause =>
      refine .inl ⟨fun ⟨_, fits⟩ => ?_, _, rfl, fun x => ?_⟩
      · rw [List.length_map, arityFault?_eq_none.mpr (fits _ arity)] at fault
        cases fault
      · rintro rfl
        exact arityFault?_ne_cycle fault
  | none =>
    have defined : definition? defs u.name = defs.reverse.find? (·.name == u.name) := by
      rw [definition?, builtin]
      rfl
    dsimp only
    cases found : defs.reverse.find? (·.name == u.name) with
    | none =>
      refine .inl ⟨fun ⟨known, _⟩ => ?_, _, rfl, nofun⟩
      rcases known with ⟨d, here⟩ | ⟨d, member, same⟩
      · rw [builtin] at here
        cases here
      · have := List.find?_eq_none.mp found d (List.mem_reverse.mpr member)
        simp [same] at this
    | some d =>
      rw [found] at defined
      obtain ⟨-, -, same⟩ := definition?_some defined
      have arity : arity? defs u.name = some (d.params.length, d.params.length) := by
        rw [arity?, builtin, defined]
        rfl
      dsimp only
      cases fault : arityFault? u.name d.params.length d.params.length
          (u.args.map (bindArg · env)).length with
      | some cause =>
        refine .inl ⟨fun ⟨_, fits⟩ => ?_, _, rfl, fun x => ?_⟩
        · rw [List.length_map, arityFault?_eq_none.mpr (fits _ arity)] at fault
          cases fault
        · rintro rfl
          exact arityFault?_ne_cycle fault
      | none =>
        rw [List.length_map, arityFault?_eq_none] at fault
        refine .inr (.inr ⟨fun r found => Option.some.inj (arity.symm.trans found) ▸ fault, d, defined,
          ?_⟩)
        dsimp only
        rw [same]
        by_cases inside : u.name ∈ stack
        · rw [if_pos (List.contains_iff_mem.mpr inside)]
          exact .inl ⟨.inl inside, rfl⟩
        · rw [if_neg (mt List.contains_iff_mem.mp inside)]
          cases n with
          | zero => exact .inl ⟨.inr rfl, rfl⟩
          | succ m => exact .inr ⟨inside, m, rfl, rfl⟩

/-! ### Open attributes -/

/-- The attributes that are open when `name` is looked at: each composes the next, none is open
twice, and all are defined. -/
structure Opened (defs : List Definition) (stack : List String) (name : String) : Prop where
  linked : (stack ++ [name]).IsChain (Composes defs)
  distinct : stack.Nodup
  defined : stack ⊆ defs.map (·.name)

theorem opened_nil (defs : List Definition) (name : String) : Opened defs [] name :=
  ⟨List.isChain_singleton name, List.nodup_nil, List.nil_subset _⟩

theorem Opened.room {d : Definition} (opened : Opened defs stack name)
    (found : definition? defs name = some d) (new : name ∉ stack) :
    stack.length < defs.length := by
  obtain ⟨-, member, same⟩ := definition?_some found
  have distinct : (name :: stack).Nodup := List.nodup_cons.mpr ⟨new, opened.distinct⟩
  have inside : name :: stack ⊆ defs.map (·.name) :=
    List.cons_subset.mpr ⟨same ▸ List.mem_map_of_mem member, opened.defined⟩
  have short := (distinct.subperm inside).length_le
  rwa [List.length_cons, List.length_map] at short

theorem Opened.push (opened : Opened defs stack u.name) (new : u.name ∉ stack)
    (applies : Applies defs u v) : Opened defs (stack ++ [u.name]) v.name where
  linked := by
    refine List.isChain_append.mpr ⟨opened.linked, List.isChain_singleton _, ?_⟩
    simpa using applies.composes
  distinct := List.nodup_append.mpr ⟨opened.distinct, List.nodup_singleton _, by
    rintro x inside _ here rfl
    exact new (List.mem_singleton.mp here ▸ inside)⟩
  defined := by
    obtain ⟨d, found, -⟩ := applies
    obtain ⟨-, member, same⟩ := definition?_some found
    refine List.append_subset.mpr ⟨opened.defined, fun x here => ?_⟩
    rw [List.mem_singleton.mp here, ← same]
    exact List.mem_map_of_mem member

theorem Opened.transGen (opened : Opened defs stack name) (inside : name ∈ stack) :
    TransGen (Composes defs) name name := by
  obtain ⟨before, after, split⟩ := List.append_of_mem inside
  have suffix : name :: after ++ [name] <:+ stack ++ [name] := ⟨before, by simp [split]⟩
  exact transGen_of_isChain (opened.linked.suffix suffix)

/-- With as many steps as there are definitions that are not open, more of them change nothing. -/
theorem expand_stable (opened : Opened defs stack u.name) {m : Nat}
    (steps : defs.length ≤ stack.length + n) (more : n ≤ m) :
    expand defs m env stack u = expand defs n env stack u := by
  induction n using Nat.strongRecOn generalizing m env stack u with
  | ind n ih =>
    unfold expand
    dsimp only
    cases builtin : Directive.ofName? u.name with
    | some d => rfl
    | none =>
      have defined : definition? defs u.name = defs.reverse.find? (·.name == u.name) := by
        rw [definition?, builtin]
        rfl
      dsimp only
      cases found : defs.reverse.find? (·.name == u.name) with
      | none => rfl
      | some d =>
        rw [found] at defined
        dsimp only
        cases arityFault? u.name d.params.length d.params.length
          (u.args.map (bindArg · env)).length with
        | some cause => rfl
        | none =>
          dsimp only
          rw [(definition?_some defined).2.2]
          by_cases inside : u.name ∈ stack
          · rw [if_pos (List.contains_iff_mem.mpr inside), if_pos (List.contains_iff_mem.mpr inside)]
          · have room := opened.room defined inside
            obtain ⟨n, rfl⟩ : ∃ k, n = k + 1 := ⟨n - 1, by omega⟩
            obtain ⟨m, rfl⟩ : ∃ k, m = k + 1 := ⟨m - 1, by omega⟩
            dsimp only
            rw [mapM_congr fun v member => ih n n.lt_succ_self (opened.push inside ⟨d, defined, member⟩)
              (by rw [List.length_append, List.length_singleton]; omega) (by omega)]

/-! ### Uses that can be expanded -/

/-- A use whose expansion ends: a built-in directive, or one whose directives are such uses. -/
inductive Composed (defs : List Definition) : AttributeUse → Prop where
  | builtin {u : AttributeUse} {d : Directive} (found : Directive.ofName? u.name = some d)
      (fits : Fits defs u) : Composed defs u
  | defined {u : AttributeUse} {d : Definition} (found : definition? defs u.name = some d)
      (fits : Fits defs u) (each : ∀ v ∈ d.directives, Composed defs v) : Composed defs u

theorem composed_of_expand {fx : Effects} (run : expand defs n env stack u = .ok fx) :
    Composed defs u := by
  induction n using Nat.strongRecOn generalizing env stack u fx with
  | ind n ih =>
    rcases expand_cases defs n env stack u with ⟨-, e, fault, -⟩ | ⟨fits, d, found, -⟩ |
      ⟨fits, d, found, ⟨-, cycle⟩ | ⟨-, m, rfl, step⟩⟩
    · rw [fault] at run
      cases run
    · exact .builtin found fits
    · rw [cycle] at run
      cases run
    · rw [step] at run
      obtain ⟨fxs, expanded, -⟩ := except_bind_ok run
      refine .defined found fits fun v member => ?_
      obtain ⟨fx, run⟩ := mapM_ok_iff.mp ⟨fxs, expanded⟩ v member
      exact ih m m.lt_succ_self run

theorem Composed.acc (h : Composed defs u) : Acc (flip (Composes defs)) u.name := by
  induction h with
  | @builtin u d found =>
    refine Acc.intro _ fun b composes => ?_
    obtain ⟨d, defined, -⟩ : Composes defs u.name b := composes
    rw [(definition?_some defined).1] at found
    cases found
  | @defined u d found _ _ ih =>
    refine Acc.intro _ fun b composes => ?_
    obtain ⟨v, ⟨d', found', member⟩, rfl⟩ := Composes.applies composes
    obtain rfl := Option.some.inj (found.symm.trans found')
    exact ih v member

theorem expand_of_composed (h : Composed defs u) (opened : Opened defs stack u.name)
    (steps : defs.length ≤ stack.length + n) : ∃ fx, expand defs n env stack u = .ok fx := by
  have sound := h
  induction h generalizing n env stack with
  | @builtin u d found fits =>
    rcases expand_cases defs n env stack u with ⟨fault, -⟩ | ⟨-, d, -, run⟩ | ⟨-, d, defined, -⟩
    · exact absurd ⟨.inl ⟨d, found⟩, fits⟩ fault
    · exact ⟨_, run⟩
    · rw [(definition?_some defined).1] at found
      cases found
  | @defined u d found fits each ih =>
    obtain ⟨custom, member, same⟩ := definition?_some found
    have new : u.name ∉ stack := fun inside => not_transGen_of_acc sound.acc (opened.transGen inside)
    have room := opened.room found new
    rcases expand_cases defs n env stack u with ⟨fault, -⟩ | ⟨-, d, builtin, -⟩ |
      ⟨-, d', found', ⟨full, -⟩ | ⟨-, m, rfl, run⟩⟩
    · exact absurd ⟨.inr ⟨d, member, same⟩, fits⟩ fault
    · rw [custom] at builtin
      cases builtin
    · rcases full with inside | rfl
      · exact absurd inside new
      · omega
    · obtain rfl := Option.some.inj (found.symm.trans found')
      obtain ⟨fxs, expanded⟩ : ∃ fxs, d.directives.mapM (expand defs m
          (binding d.params (u.args.map (bindArg · env))) (stack ++ [u.name])) = .ok fxs :=
        mapM_ok_iff.mpr fun v member => ih v member (opened.push new ⟨d, found, member⟩)
          (by rw [List.length_append, List.length_singleton]; omega) (each v member)
      exact ⟨_, by rw [run, expanded]; rfl⟩

theorem Composed.reach (h : Composed defs u) (reach : ReflTransGen (Applies defs) u v) :
    Composed defs v := by
  induction reach with
  | refl => exact h
  | @tail v w _ applies ih =>
    obtain ⟨d, found, member⟩ := applies
    cases ih with
    | builtin here =>
      rw [(definition?_some found).1] at here
      cases here
    | defined here _ each =>
      obtain rfl := Option.some.inj (here.symm.trans found)
      exact each w member

theorem Composed.own (h : Composed defs u) : Known defs u.name ∧ Fits defs u := by
  cases h with
  | builtin found fits => exact ⟨.inl ⟨_, found⟩, fits⟩
  | defined found fits =>
    obtain ⟨-, member, same⟩ := definition?_some found
    exact ⟨.inr ⟨_, member, same⟩, fits⟩

/-- The three conditions on what can be reached from a use. -/
structure Sensible (defs : List Definition) (u : AttributeUse) : Prop where
  known : ∀ v, ReflTransGen (Applies defs) u v → Known defs v.name
  fits : ∀ v, ReflTransGen (Applies defs) u v → Fits defs v
  acyclic : ∀ v, ReflTransGen (Applies defs) u v → ¬ TransGen (Composes defs) v.name v.name

theorem Composed.sensible (h : Composed defs u) : Sensible defs u where
  known _ reach := (h.reach reach).own.1
  fits _ reach := (h.reach reach).own.2
  acyclic _ reach := not_transGen_of_acc (h.reach reach).acc

theorem Sensible.step (h : Sensible defs u) (applies : Applies defs u v) : Sensible defs v where
  known w reach := h.known w (.head applies reach)
  fits w reach := h.fits w (.head applies reach)
  acyclic w reach := h.acyclic w (.head applies reach)

theorem Sensible.composed (h : Sensible defs u) (opened : Opened defs stack u.name)
    (steps : defs.length ≤ stack.length + n) : Composed defs u := by
  induction n using Nat.strongRecOn generalizing stack u with
  | ind n ih =>
    by_cases builtin : ∃ d, Directive.ofName? u.name = some d
    · obtain ⟨d, found⟩ := builtin
      exact .builtin found (h.fits u .refl)
    obtain ⟨d, found⟩ : ∃ d, definition? defs u.name = some d := by
      obtain ⟨d, member, same⟩ := (h.known u .refl).resolve_left builtin
      rw [definition?, if_neg (by simpa [Option.isSome_iff_exists] using builtin),
        ← Option.isSome_iff_exists, List.find?_isSome]
      exact ⟨d, List.mem_reverse.mpr member, beq_iff_eq.mpr same⟩
    have new : u.name ∉ stack := fun inside => h.acyclic u .refl (opened.transGen inside)
    have room := opened.room found new
    refine .defined found (h.fits u .refl) fun v member => ?_
    have applies : Applies defs u v := ⟨d, found, member⟩
    exact ih (n - 1) (by omega) (h.step applies) (opened.push new applies)
      (by rw [List.length_append, List.length_singleton]; omega)

theorem composed_iff_sensible : Composed defs u ↔ Sensible defs u :=
  ⟨Composed.sensible, fun h => h.composed (opened_nil defs u.name) (Nat.le_add_left _ _)⟩

theorem expand_ok_iff :
    (∃ fx, expand defs defs.length [] [] u = .ok fx) ↔ Sensible defs u := by
  rw [← composed_iff_sensible]
  exact ⟨fun ⟨_, run⟩ => composed_of_expand run, fun composed =>
    expand_of_composed composed (opened_nil defs _) (Nat.le_add_left _ _)⟩

/-! ### Cycles -/

/-- A path of attributes, each composing the next, that ends with one that is there already. -/
structure IsCyclic (defs : List Definition) (path : List String) (name : String) : Prop where
  last : path.getLast? = some name
  again : name ∈ path.dropLast
  linked : path.IsChain (Composes defs)

theorem expand_cycle {e : AttributeError} (opened : Opened defs stack u.name)
    (steps : defs.length ≤ stack.length + n) (failed : expand defs n env stack u = .error e)
    (cause : e.cause = .cycle name) : IsCyclic defs e.path name := by
  induction n using Nat.strongRecOn generalizing env stack u with
  | ind n ih =>
    rcases expand_cases defs n env stack u with ⟨-, e', run, plain⟩ | ⟨-, d, -, run⟩ |
      ⟨-, d, found, ⟨full, run⟩ | ⟨new, m, rfl, run⟩⟩
    · cases run.symm.trans failed
      exact absurd cause (plain name)
    · cases run.symm.trans failed
    · cases run.symm.trans failed
      cases cause
      have inside : u.name ∈ stack := by
        by_contra new
        have room := opened.room found new
        rcases full with inside | rfl
        · exact new inside
        · omega
      exact ⟨List.getLast?_concat, by rwa [List.dropLast_concat], opened.linked⟩
    · rcases except_bind_error (run.symm.trans failed) with failed | ⟨fxs, -, failed⟩
      · obtain ⟨v, member, failed⟩ := mapM_error failed
        have room := opened.room found new
        exact ih m m.lt_succ_self (opened.push new ⟨d, found, member⟩)
          (by rw [List.length_append, List.length_singleton]; omega) failed
      · cases failed

end Attribute

/-! ### Files -/

mutual

/-- The uses that the expansion of a declaration expands: those in front of it and of what it holds,
but neither those in front of a definition nor those of the functions of a binding. -/
def Decl.applied : Decl → List AttributeUse
  | .item i => i.info.attrs
  | .scope info _ ds => info.attrs ++ Decl.appliedIn ds
  | .cls info _ _ items => info.attrs ++ items.flatMap (·.info.attrs)
  | .attributeDef _ _ _ _ => []
  | .includes info _ _ _ | .assume info _ _ | .abstraction info _ _ _ | .refurbish info _ _ =>
    info.attrs

def Decl.appliedIn : List Decl → List AttributeUse
  | [] => []
  | d :: ds => d.applied ++ Decl.appliedIn ds

end

def File.applied (file : File) : List AttributeUse := Decl.appliedIn file.decls

namespace Attribute

open Relation

section

variable {α β : Type} {defs : List Definition} {us vs : List AttributeUse}

/-- A result stands if and only if all of `us` can be expanded; a failure is the failure of one. -/
def Expands (defs : List Definition) (us : List AttributeUse) :
    Except AttributeError α → Prop
  | .ok _ => ∀ u ∈ us, ∃ fx, expand defs defs.length [] [] u = .ok fx
  | .error e => ∃ u ∈ us, expand defs defs.length [] [] u = .error e

theorem Expands.pure {a : α} : Expands defs [] (pure a : Except AttributeError α) :=
  fun _ member => absurd member List.not_mem_nil

theorem Expands.bind {r : Except AttributeError α} {f : α → Except AttributeError β}
    (first : Expands defs us r) (rest : ∀ a, Expands defs vs (f a)) :
    Expands defs (us ++ vs) (r >>= f) := by
  cases r with
  | error e =>
    obtain ⟨u, member, failed⟩ := first
    exact ⟨u, List.mem_append_left _ member, failed⟩
  | ok a =>
    rw [ok_bind]
    have rest := rest a
    cases run : f a with
    | error e =>
      rw [run] at rest
      obtain ⟨u, member, failed⟩ := rest
      exact ⟨u, List.mem_append_right _ member, failed⟩
    | ok b =>
      rw [run] at rest
      exact fun u member => (List.mem_append.mp member).elim (first u) (rest u)

theorem Expands.map {r : Except AttributeError α} {f : α → β} (h : Expands defs us r) :
    Expands defs us (r >>= fun a => Pure.pure (f a)) :=
  List.append_nil us ▸ h.bind fun _ => .pure

theorem expandInfo_expands (info : DeclInfo) : Expands defs info.attrs (expandInfo defs info) := by
  refine .map ?_
  cases run : useEffects defs info.attrs with
  | ok fxs => exact mapM_ok_iff.mp ⟨fxs, run⟩
  | error e => exact mapM_error run

theorem expandItem_expands (i : Item) : Expands defs i.info.attrs (expandItem defs i) :=
  .map (expandInfo_expands i.info)

theorem expandItems_expand (items : List Item) :
    Expands defs (items.flatMap (·.info.attrs)) (items.mapM (expandItem defs)) := by
  induction items with
  | nil => exact .pure
  | cons i items ih =>
    rw [List.flatMap_cons, List.mapM_cons]
    exact (expandItem_expands i).bind fun _ => .map ih

mutual

theorem expandDecl_expands : (d : Decl) → Expands defs d.applied (expandDecl defs d)
  | .item i => by
    rw [expandDecl, Decl.applied]
    exact .map (expandItem_expands i)
  | .scope info name ds => by
    rw [expandDecl, Decl.applied]
    exact (expandInfo_expands info).bind fun _ => .map (expandDecls_expand ds)
  | .cls info name bases items => by
    rw [expandDecl, Decl.applied]
    exact (expandInfo_expands info).bind fun _ => .map (expandItems_expand items)
  | .attributeDef _ _ _ _ => .pure
  | .includes info _ _ _ | .assume info _ _ | .abstraction info _ _ _ | .refurbish info _ _ =>
    .map (expandInfo_expands info)

theorem expandDecls_expand : (ds : List Decl) →
    Expands defs (Decl.appliedIn ds) (expandDecls defs ds)
  | [] => .pure
  | d :: ds => by
    rw [expandDecls, Decl.appliedIn]
    exact (expandDecl_expands d).bind fun _ => .map (expandDecls_expand ds)

end

theorem expandFile_expands (file : File) (info : Option Info) :
    Expands (definitionsOf file.decls) file.applied (file.expand info) := by
  rw [File.expand]
  refine List.append_nil file.applied ▸ (expandDecls_expand file.decls).bind fun ds => ?_
  cases info <;> exact .pure

end

/-- Expanding a use takes a bounded number of steps. It gives a result if and only if all names that
are reached are known, all numbers of arguments fit and nothing that is reached is composed of
itself; a cycle is reported with a path that shows it. A file can be expanded if and only if this
holds of every use that its expansion visits. -/
theorem expansion_ends (file : File) :
    let defs := definitionsOf file.decls
    (∀ u, (∀ n, defs.length ≤ n → expand defs n [] [] u = expand defs defs.length [] [] u) ∧
      ((∃ fx, expand defs defs.length [] [] u = .ok fx) ↔ Sensible defs u) ∧
      ∀ e name, expand defs defs.length [] [] u = .error e → e.cause = .cycle name →
        IsCyclic defs e.path name) ∧
    ∀ info, ((∃ file', file.expand info = .ok file') ↔ ∀ u ∈ file.applied, Sensible defs u) ∧
      ∀ e name, file.expand info = .error e → e.cause = .cycle name →
        IsCyclic defs e.path name := by
  intro defs
  have enough : defs.length ≤ ([] : List String).length + defs.length := Nat.le_add_left _ _
  have cycles (u : AttributeUse) (e : AttributeError) (name : String)
      (failed : expand defs defs.length [] [] u = .error e) (cause : e.cause = .cycle name) :
      IsCyclic defs e.path name := expand_cycle (opened_nil defs _) enough failed cause
  refine ⟨fun u => ⟨fun n more => expand_stable (opened_nil defs _) enough more, expand_ok_iff, cycles u⟩,
    fun info => ?_⟩
  have whole := expandFile_expands file info
  cases run : file.expand info with
  | ok file' =>
    rw [run] at whole
    exact ⟨⟨fun _ u member => expand_ok_iff.mp (whole u member), fun _ => ⟨_, rfl⟩⟩, nofun⟩
  | error e =>
    rw [run] at whole
    obtain ⟨u, member, failed⟩ := whole
    refine ⟨⟨nofun, fun all => ?_⟩, ?_⟩
    · obtain ⟨fx, run⟩ := expand_ok_iff.mpr (all u member)
      cases run.symm.trans failed
    · rintro _ name ⟨⟩
      exact cycles u e name failed

/-- Two attributes that compose each other, and a function that one of them is applied to. -/
def mutualUse : File where
  decls := [
    .attributeDef { span := {} } "A" [] [⟨{}, "B", []⟩, ⟨{}, "NoHeader", []⟩],
    .attributeDef { span := {} } "B" [] [⟨{}, "A", []⟩],
    .item (.func { info := { span := {}, attrs := [⟨{}, "A", []⟩] }, name := "f" })]

theorem expansion_ends_of_mutualUse :
    mutualUse.expand none = .error ⟨.cycle "A", {}, ["A", "B", "A"]⟩ ∧
      IsCyclic (definitionsOf mutualUse.decls) ["A", "B", "A"] "A" ∧
      ¬ ∀ u ∈ mutualUse.applied, Sensible (definitionsOf mutualUse.decls) u := by
  have failed : mutualUse.expand none = .error ⟨.cycle "A", {}, ["A", "B", "A"]⟩ := by cbv
  obtain ⟨-, whole⟩ := expansion_ends mutualUse
  obtain ⟨expands, cycles⟩ := whole none
  refine ⟨failed, cycles _ _ failed rfl, fun all => ?_⟩
  obtain ⟨file', run⟩ := expands.mpr all
  cases run.symm.trans failed

end Attribute

end TastyLang
