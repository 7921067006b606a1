import TastyLang.Builtin.Basic
import TastyLang.Proofs.Evaluation
import TastyLang.Proofs.Reading.Marks
import TastyLang.Proofs.Resolution.Passes

/-!
# Resolution is complete

A file that was read and resolved has an entry for each of its nodes: expressions and written types
have types, names have symbols of their own, variables have types and functions have results. What is
noted for a name is the symbol of that name, and it is unknown only if nothing declares it.
-/

namespace TastyLang

namespace Resolution

variable {table : Table} {file : File} {s s' : State}

/-! ### All nodes are noted -/

theorem Passed.noted {s₁ s₂ : State} (passed : Passed table file file.decls s₁ s₂ s) :
    ∀ n ∈ file.nodes, s.Noted file n := by
  intro n member
  by_cases part : n.isPart
  · have inside : n ∈ Decl.nodesOf file.decls := by
      rcases List.mem_cons.mp member with rfl | inside
      · cases part
      · exact inside
    rcases Decl.nodesOf_read part file.decls inside with early | value | ⟨f, listed, rfl | late⟩
    · exact Regime.noted passed.formed passed.third (passed.types.nodes n early)
    · exact passed.ended.noted n value
    · refine ⟨(passed.finished f listed).result, fun q member => ?_⟩
      exact (Regime.grows passed.third).params _ (passed.relies.params f listed q member)
    · exact (passed.finished f listed).late n late
  · cases n with
    | file _ | decl _ | enum _ | inject _ => trivial
    | _ => exact absurd rfl part

/-! ### What names refer to -/

/-- Every entry for a name belongs to a name of the file, and its symbol fits the name. -/
def State.Named (table : Table) (file : File) (s : State) : Prop :=
  ∀ (span : Span) (id : SymbolId), s.info.uses[span]? = some id →
    ∃ name, .expr (.ident span name) ∈ file.nodes ∧ id < s.info.symbols.symbols.size ∧
      (s.info.symbols.symbol id).name = name ∧
      file.Identifies table name (s.info.symbols.symbol id).unknown

theorem State.Named.change {c : Change} (h : s.Named table file)
    (allowed : (resolving table file).may s c) : (c.apply s).Named table file := by
  have grown := Change.grows allowed.1
  have kept : (c.apply s).info.uses = s.info.uses → (c.apply s).Named table file := by
    intro same span id found
    obtain ⟨name, listed, lt, named, fits⟩ := h span id (same ▸ found)
    have later := grown.symbols.symbol id lt
    exact ⟨name, listed, Nat.lt_of_lt_of_le lt grown.symbols.symbols, later.name.trans named,
      later.unknown ▸ fits⟩
  cases c with
  | use span id =>
    intro k i found
    rcases getElem?_insert_cases found with ⟨rfl, rfl⟩ | old
    · obtain ⟨name, listed, fits⟩ := allowed.2
      exact ⟨name, File.late_subset listed, fits⟩
    · exact h k i old
  | _ => exact kept rfl

theorem Passed.named {s₁ s₂ : State} (passed : Passed table file file.decls s₁ s₂ s) : s.Named table file := by
  refine passed.third.keeps (fun _ _ allowed h => h.change allowed) fun span id found => ?_
  exact absurd (mem_iff_found.mpr ⟨id, found⟩) (passed.fresh.uses span)

end Resolution

open Resolution

/-- What a text is read and resolved to. -/
def resolved? (table : Table) (name src : String) : Option (File × Info) := do
  let file ← (File.read table name src).toOption
  let info ← (file.resolve table).toOption
  return (file, info)

theorem resolved?_some {table : Table} {name src : String} {file : File} {info : Info}
    (h : resolved? table name src = some (file, info)) :
    File.read table name src = .ok file ∧ file.resolve table = .ok info := by
  obtain ⟨_, read, h⟩ := Option.bind_eq_some_iff.mp h
  obtain ⟨_, resolved, h⟩ := Option.bind_eq_some_iff.mp h
  cases h
  exact ⟨toOption_eq_some read, toOption_eq_some resolved⟩

/-- The place of a node that is a member access. -/
def Node.member? : Node → Option Span
  | .expr (.member span _ _ _) => some span
  | _ => none

end TastyLang
