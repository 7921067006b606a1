import TastyLang.Proofs.Resolution.Resolving
import TastyLang.Proofs.Resolution.Signing
import TastyLang.Proofs.Resolution.Keys

/-!
# What the passes leave alone

A run of the second pass keeps all scopes, and of a symbol it changes the type at most; it notes
written types in its zone only (`State.Frames`). While it is at no class and at no abstract binding,
neither the hierarchy nor the type of anything but variables changes (`State.Rests`). The third pass
keeps the hierarchy and what the second has noted.
-/

namespace TastyLang.Resolution

variable {file : File} {s s' s'' : State} {zone zone' : List Node} {b : Bool}

structure State.Frames (zone : List Node) (s s' : State) : Prop where
  scopes : s'.info.symbols.scopes = s.info.symbols.scopes
  assumed : s'.assumed = s.assumed
  classes : s'.info.classes = s.info.classes
  typeExprs : ∀ span ∉ typeSpans zone, s'.info.typeExprs[span]? = s.info.typeExprs[span]?
  size : s.info.symbols.symbols.size ≤ s'.info.symbols.symbols.size
  symbol : ∀ id < s.info.symbols.symbols.size,
    ∃ t, s'.info.symbols.symbol id = { s.info.symbols.symbol id with type := t }
  fresh : ∀ id < s'.info.symbols.symbols.size, s.info.symbols.symbols.size ≤ id →
    (s'.info.symbols.symbol id).kind = .param

theorem State.Frames.refl (zone : List Node) (s : State) : s.Frames zone s :=
  ⟨rfl, rfl, rfl, fun _ _ => rfl, Nat.le_refl _, fun _ _ => ⟨_, rfl⟩,
    fun _ lt le => absurd lt (Nat.not_lt.mpr le)⟩

theorem State.Frames.trans (h : s.Frames zone s') (h' : s'.Frames zone s'') :
    s.Frames zone s'' where
  scopes := h'.scopes.trans h.scopes
  assumed := h'.assumed.trans h.assumed
  classes := h'.classes.trans h.classes
  typeExprs span away := (h'.typeExprs span away).trans (h.typeExprs span away)
  size := Nat.le_trans h.size h'.size
  symbol id lt := by
    obtain ⟨_, first⟩ := h.symbol id lt
    obtain ⟨t, second⟩ := h'.symbol id (Nat.lt_of_lt_of_le lt h.size)
    exact ⟨t, by rw [second, first]⟩
  fresh id lt le := by
    by_cases old : id < s'.info.symbols.symbols.size
    · obtain ⟨_, same⟩ := h'.symbol id old
      rw [same]
      exact h.fresh id old le
    · exact h'.fresh id lt (Nat.le_of_not_lt old)

theorem Change.frames {c : Change} (signs : c.Signs zone b s) : s.Frames zone (c.apply s) := by
  have same := State.Frames.refl zone s
  cases c with
  | alloc x =>
    have size : ((Change.alloc x).apply s).info.symbols.symbols.size =
      s.info.symbols.symbols.size + 1 := Array.size_push x
    have symbol : ∀ id, ((Change.alloc x).apply s).info.symbols.symbol id =
        if id = s.info.symbols.symbols.size then x else s.info.symbols.symbol id :=
      s.info.symbols.symbol_alloc x
    refine { same with size := by omega, symbol := fun id lt => ?_, fresh := fun id lt le => ?_ }
    · rw [symbol, if_neg (Nat.ne_of_lt lt)]
      exact ⟨_, rfl⟩
    · have last : id < s.info.symbols.symbols.size + 1 := Nat.lt_of_lt_of_eq lt size
      rw [symbol, if_pos (Nat.le_antisymm (Nat.le_of_lt_succ last) le)]
      exact signs
  | type id t =>
    have size : ((Change.type id t).apply s).info.symbols.symbols.size =
      s.info.symbols.symbols.size := Array.size_modify
    refine { same with size := by omega, symbol := fun i lt => ?_, fresh := fun i lt le => by omega }
    change ∃ u, (SymbolTable.modifySymbol _ _ _).symbol i = _
    rw [SymbolTable.symbol_modifySymbol]
    split
    · exact ⟨some t, rfl⟩
    · exact ⟨_, rfl⟩
  | written span u =>
    refine { same with typeExprs := fun k away => ?_ }
    have apart : compare span k ≠ .eq := fun h =>
      away (Std.LawfulEqOrd.eq_of_compare h ▸ mem_typeSpans.mpr signs)
    exact (Std.TreeMap.getElem?_insert).trans (if_neg apart)
  | newClass _ | addBase _ _ | capabilities _ | extension _ | extended _ | func _ _
  | refurbish _ _ _ | param _ _ | result _ _ => exact { same with }
  | _ => exact absurd signs id

theorem signing_frames (run : s.Run (signing file zone b).may s') : s.Frames zone s' :=
  run.keeps (P := s.Frames zone) (fun _ _ allowed framed => framed.trans (Change.frames allowed.2))
    (.refl zone s)

def State.Unwritten (s : State) (zone : List Node) : Prop :=
  ∀ span ∈ typeSpans zone, s.info.typeExprs[span]? = none

theorem State.Unwritten.mono (h : s.Unwritten zone) (fewer : ∀ n ∈ zone', n ∈ zone) :
    s.Unwritten zone' := by
  intro span member
  obtain ⟨t, inside, own⟩ := mem_typeSpans.mp member
  exact h span (mem_typeSpans.mpr ⟨t, fewer _ inside, own⟩)

theorem State.Unwritten.frames (h : s.Unwritten zone') (framed : s.Frames zone s')
    (apart : (typeSpans (zone ++ zone')).Nodup) : s'.Unwritten zone' := by
  intro span member
  rw [typeSpans_append] at apart
  have away : span ∉ typeSpans zone := fun before =>
    (List.nodup_append.mp apart).2.2 span before span member rfl
  rw [framed.typeExprs span away]
  exact h span member

/-! ### Between classes and bindings -/

structure State.Rests (s s' : State) : Prop where
  hierarchy : s'.info.hierarchy = s.info.hierarchy
  symbol : ∀ id < s.info.symbols.symbols.size, (s.info.symbols.symbol id).kind ≠ .var →
    s'.info.symbols.symbol id = s.info.symbols.symbol id

theorem Change.rests {c : Change} (signs : c.Signs zone false s) : s.Rests (c.apply s) := by
  have same : s.Rests s := ⟨rfl, fun _ _ _ => rfl⟩
  cases c with
  | alloc x =>
    refine { same with symbol := fun id lt _ => ?_ }
    exact (s.info.symbols.symbol_alloc x id).trans (if_neg (Nat.ne_of_lt lt))
  | type id t =>
    refine { same with symbol := fun i lt other => ?_ }
    have var := signs.resolve_left (by simp)
    change (SymbolTable.modifySymbol _ _ _).symbol i = _
    rw [SymbolTable.symbol_modifySymbol, if_neg]
    rintro ⟨rfl, -⟩
    exact other var
  | newClass _ | addBase _ _ => exact absurd signs (by simp [Change.Signs])
  | capabilities _ | extension _ | extended _ | func _ _ | refurbish _ _ _ | param _ _
  | result _ _ | written _ _ => exact { same with }
  | _ => exact absurd signs id

theorem signing_rests (run : s.Run (signing file zone false).may s') : s.Rests s' := by
  refine (run.keeps (P := fun s' => s.Frames zone s' ∧ s.Rests s')
    (fun s₁ c allowed before => ?_) ⟨.refl zone s, rfl, fun _ _ _ => rfl⟩).2
  obtain ⟨framed, rests⟩ := before
  have here := Change.rests allowed.2
  refine ⟨framed.trans (Change.frames allowed.2), here.hierarchy.trans rests.hierarchy,
    fun id lt other => ?_⟩
  have same := rests.symbol id lt other
  rw [here.symbol id (Nat.lt_of_lt_of_le lt framed.size) (by rw [same]; exact other), same]

/-! ### The third pass -/

theorem resolving_frames {table : Table} (run : s.Run (resolving table file).may s') :
    s'.info.hierarchy = s.info.hierarchy ∧
      ∀ span ∉ typeSpans file.late, s'.info.typeExprs[span]? = s.info.typeExprs[span]? := by
  refine run.keeps (P := fun s' => s'.info.hierarchy = s.info.hierarchy ∧
    ∀ span ∉ typeSpans file.late, s'.info.typeExprs[span]? = s.info.typeExprs[span]?)
    (fun s₁ c allowed before => ?_) ⟨rfl, fun _ _ => rfl⟩
  have resolves := allowed.2
  cases c with
  | written span u =>
    refine ⟨before.1, fun k away => ?_⟩
    have apart : compare span k ≠ .eq := fun h =>
      away (Std.LawfulEqOrd.eq_of_compare h ▸ mem_typeSpans.mpr resolves)
    exact ((Std.TreeMap.getElem?_insert).trans (if_neg apart)).trans (before.2 k away)
  | newClass _ | addBase _ _ => exact absurd resolves id
  | _ => exact before

end TastyLang.Resolution
