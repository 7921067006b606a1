import TastyLang.Proofs.Emission.Bindings
import TastyLang.Proofs.Evaluation
import TastyLang.Proofs.Resolution.WrittenNames

/-!
# What holds a value

The word in front of a variable says how it holds its value (`Storage.Kind.Makes`). The type of the variable
is the one that the word asks for, unless the value is a smart pointer of the other owner: then the variable
has the type of the value, whatever its word says (`Info.varType_honours_iff`).
-/

namespace TastyLang

open Resolution

/-! ### Storage words -/

/-- `n` shared pointers around a type. -/
inductive Ty.Around (t : Ty) : Nat → Ty → Prop
  | zero : Around t 0 t
  | succ {n : Nat} {u : Ty} (inner : Around t n u) : Around t (n + 1) (.smart u false)

/-- A smart pointer that shares what it points to, or owns it alone. -/
def Ty.OwnedBy (t : Ty) (unique : Bool) : Prop := ∃ x, t.core = .smart x unique

instance (t : Ty) (unique : Bool) : Decidable (t.OwnedBy unique) :=
  match shape : t.core with
  | .smart x v =>
    if same : v = unique then isTrue ⟨x, same ▸ shape⟩
    else isFalse fun ⟨_, other⟩ => same (Ty.smart.inj (shape.symm.trans other)).2
  | .void | .null | .prim _ | .cls _ _ | .enum _ | .scope _ | .template _ _ | .tuple _ | .pointer _ _
  | .reference _ _ | .func _ _ | .range _ | .unknown _ | .invalid | .absent | .via _ _ =>
    isFalse fun ⟨_, other⟩ => nomatch shape.symm.trans other

/-- A raw pointer to values of a type, or the type itself if it is one. -/
structure Ty.Raw (t p : Ty) : Prop where
  pointer : ∃ x n, p.core = .pointer x n
  near : p = t ∨ p = .pointer t 1

namespace Storage

/-- The words for a form of ownership. -/
def Kind.Of (word : Token) : Kind → Prop
  | value => word.kind = .storage .copy ∨ word.kind = .storage .letCopy
  | reference isConst => word.kind = .storage (if isConst then .borrow else .ref)
  | moved => word.kind = .storage .move
  | rawPointer n => word.kind = .storage .ptr ∧
    (Text.dropHead "ptr" word.literal = "" ∧ n = 1 ∨
      Text.integer? (Text.dropHead "ptr" word.literal) = some (n : Int) ∧ 2 ≤ n ∧ n ≤ 9)
  | shared => word.kind = .storage .autoptr
  | unique => word.kind = .storage .uniqueptr
  | unresolved => False

/-- The second type is what a form of ownership asks for, for a variable that holds the first one. -/
inductive Kind.Makes (t : Ty) : Kind → Ty → Prop
  | plain {k : Kind} (kept : k = .unresolved ∨ k = .value ∨ k = .moved) : Makes t k t
  | reference (isConst : Bool) : Makes t (.reference isConst) (.reference t isConst)
  | rawPointer {n : Nat} {p u : Ty} (raw : t.Raw p) (around : p.Around (n - 1) u) : Makes t (.rawPointer n) u
  | shared {u : Ty} (owner : u.OwnedBy false) (near : u = t ∨ u = .smart t false) : Makes t .shared u
  | unique {u : Ty} (owner : u.OwnedBy true) (near : u = t ∨ u = .smart t true) : Makes t .unique u

/-- The type is a smart pointer of the other owner. -/
def Kind.Opposes : Kind → Ty → Prop
  | shared, t => t.OwnedBy true
  | unique, t => t.OwnedBy false
  | _, _ => False

theorem ofToken?_of {word : Token} {s : Storage} (h : ofToken? word = some s) : s.kind.Of word := by
  unfold ofToken? at h
  split at h
  case h_6 is =>
    dsimp only at h
    by_cases bare : Text.dropHead "ptr" word.literal = ""
    · rw [if_pos bare] at h
      cases h
      exact ⟨is, .inl ⟨bare, rfl⟩⟩
    · rw [if_neg bare] at h
      split at h
      · next n level =>
        split at h
        · next range =>
          cases h
          simp only [Bool.and_eq_true, decide_eq_true_eq] at range
          refine ⟨is, .inr ⟨?_, by omega, by omega⟩⟩
          rw [level, Int.toNat_of_nonneg (by omega)]
        · cases h
      · cases h
  case h_9 => cases h
  case h_1 is => exact Option.some.inj h ▸ .inl is
  case h_2 is => exact Option.some.inj h ▸ .inr is
  all_goals
    next is => exact Option.some.inj h ▸ is

end Storage

/-! ### Types of variables -/

theorem Ty.around_shared (t : Ty) (n : Nat) : t.Around n (t.shared n) := by
  induction n with
  | zero => exact .zero
  | succ n ih => exact .succ ih

theorem Ty.isPointer_iff {t : Ty} : t.isPointer = true ↔ ∃ x n, t.core = .pointer x n := by
  unfold isPointer
  cases t.core <;> simp

theorem Ty.isSmart_iff {t : Ty} : t.isSmart = true ↔ ∃ unique, t.OwnedBy unique := by
  unfold isSmart OwnedBy
  cases t.core <;> simp

theorem Ty.raw_ite (t : Ty) : t.Raw (if t.isPointer then t else .pointer t 1) := by
  cases pointer : t.isPointer with
  | true => exact ⟨isPointer_iff.mp pointer, .inl rfl⟩
  | false => exact ⟨⟨t, 1, rfl⟩, .inr rfl⟩

theorem Ty.OwnedBy.only {t : Ty} {u v : Bool} (owned : t.OwnedBy u) (owned' : t.OwnedBy v) : u = v := by
  obtain ⟨x, shape⟩ := owned
  obtain ⟨y, shape'⟩ := owned'
  cases shape.symm.trans shape'
  rfl

theorem Ty.ownedBy_ite (t : Ty) (unique : Bool) :
    (if t.isSmart then t else smart t unique).OwnedBy unique ↔ ¬ t.OwnedBy !unique := by
  cases smart : t.isSmart with
  | true =>
    obtain ⟨owner, owned⟩ := isSmart_iff.mp smart
    by_cases own : owner = unique
    · subst own
      refine iff_of_true owned fun other => ?_
      exact absurd (owned.only other) (by simp)
    · have other : owner = !unique := Bool.eq_not.mpr own
      subst other
      exact iff_of_false (fun same => own (owned.only same)) (fun apart => apart owned)
  | false =>
    have none : ∀ owner, ¬ t.OwnedBy owner := fun owner owned => by
      rw [isSmart_iff.mpr ⟨owner, owned⟩] at smart
      cases smart
    exact iff_of_true ⟨t, rfl⟩ (none _)

theorem Storage.Kind.Makes.ownedBy {t u : Ty} {k : Kind} (makes : k.Makes t u) :
    (k = .shared → u.OwnedBy false) ∧ (k = .unique → u.OwnedBy true) := by
  cases makes with
  | plain kept => rcases kept with rfl | rfl | rfl <;> exact ⟨nofun, nofun⟩
  | reference | rawPointer => exact ⟨nofun, nofun⟩
  | shared owner => exact ⟨fun _ => owner, nofun⟩
  | unique owner => exact ⟨nofun, fun _ => owner⟩

theorem Storage.typeOf_makes_iff (s : Storage) (t : Ty) :
    s.kind.Makes t (s.typeOf t) ↔ ¬ s.kind.Opposes t := by
  unfold typeOf
  cases s.kind with
  | unresolved => exact iff_of_true (.plain (.inl rfl)) id
  | value => exact iff_of_true (.plain (.inr (.inl rfl))) id
  | moved => exact iff_of_true (.plain (.inr (.inr rfl))) id
  | reference isConst => exact iff_of_true (.reference isConst) id
  | rawPointer n => exact iff_of_true (.rawPointer t.raw_ite (Ty.around_shared _ _)) id
  | shared =>
    have owner := t.ownedBy_ite false
    constructor
    · intro makes
      exact owner.mp (makes.ownedBy.1 rfl)
    · intro apart
      exact .shared (owner.mpr apart) (ite_eq_or_eq _ _ _)
  | unique =>
    have owner := t.ownedBy_ite true
    constructor
    · intro makes
      exact owner.mp (makes.ownedBy.2 rfl)
    · intro apart
      exact .unique (owner.mpr apart) (ite_eq_or_eq _ _ _)

theorem Storage.typeOf_of_opposes {s : Storage} {t : Ty} (opposes : s.kind.Opposes t) : s.typeOf t = t := by
  unfold Kind.Opposes at opposes
  unfold typeOf
  split at opposes
  · next kind =>
    rw [kind]
    exact if_pos (Ty.isSmart_iff.mpr ⟨_, opposes⟩)
  · next kind =>
    rw [kind]
    exact if_pos (Ty.isSmart_iff.mpr ⟨_, opposes⟩)
  · exact opposes.elim

theorem Storage.opposes_typeOf (s : Storage) (t : Ty) : s.kind.Opposes (s.typeOf t) ↔ s.kind.Opposes t := by
  constructor
  · intro opposes
    by_contra apart
    obtain ⟨shared, unique⟩ := ((s.typeOf_makes_iff t).mpr apart).ownedBy
    unfold Kind.Opposes at opposes
    split at opposes
    · next kind => exact Bool.false_ne_true ((shared kind).only opposes)
    · next kind => exact Bool.false_ne_true (opposes.only (unique kind))
    · exact opposes
  · intro opposes
    rwa [typeOf_of_opposes opposes]

theorem Storage.Kind.not_opposes_unknown (k : Kind) (x : String) : ¬ k.Opposes (.unknown x) := by
  unfold Opposes
  split
  · rintro ⟨_, shape⟩
    cases shape
  · rintro ⟨_, shape⟩
    cases shape
  · exact id

/-! ### What variables hold -/

/-- The type of what a variable holds: the written one, that of the object that it starts with, or that of
its value. -/
def Info.heldType? (info : Info) (d : VarDecl) : Option Ty :=
  match d.type, d.value with
  | some te, _ => some (info.typeOfExpr te)
  | none, some (.new _ te _) => some (info.typeOfExpr te).element
  | none, some v => some (info.typeOf v).deref
  | none, none => none

section
variable {table : Table} {name src : String} {file : File} {info : Info} {d : VarDecl}

theorem varType_held (read : File.read table name src = .ok file) (resolved : file.resolve table = .ok info)
    (node : .var d ∈ file.nodes) : info.varType d =
      match info.heldType? d with
      | some t => d.storage.typeOf t
      | none => .unknown "" := by
  have fresh : ∀ span te args, d.value = some (.new span te args) → _ :=
    fun _ _ _ => varType_new read resolved node
  obtain ⟨s₁, s₂, s, passed, rfl⟩ := File.read_passed read resolved
  obtain ⟨id, noted, carries⟩ := passed.carries read node
  unfold Info.heldType? Info.objectType at *
  cases written : d.type with
  | some te => exact passed.var_type read node written
  | none =>
    have type : s.info.varType d = inferredType d.storage (d.value.map fun v => (v, s.info.typeOf v)) := by
      rw [Info.varType, noted, Info.symbolType, Option.bind_some, carries.inferred written]
      rfl
    cases made : d.value with
    | none => rw [type, made]; rfl
    | some v =>
      cases v with
      | new span te args => rw [fresh span te args made, written]
      | _ => rw [type, made]; rfl

/-- Every word gets the type that it asks for, unless the value is a smart pointer of the other owner; then the
variable has the type of the value. So a variable that is to own its value alone shares it if and only if its
value is shared already, and the other way around. -/
theorem Info.varType_honours_iff (read : File.read table name src = .ok file)
    (resolved : file.resolve table = .ok info) (node : .var d ∈ file.nodes) :
    (∀ word s t, Storage.ofToken? word = some s → s.kind.Of word ∧
      (s.kind.Makes t (s.typeOf t) ↔ ¬ s.kind.Opposes t) ∧ (s.kind.Opposes t → s.typeOf t = t)) ∧
    (∀ t, info.heldType? d = some t →
      (d.storage.kind.Makes t (info.varType d) ↔ ¬ d.storage.kind.Opposes t) ∧
        (d.storage.kind.Opposes t → info.varType d = t)) ∧
    (d.storage.kind.Opposes (info.varType d) ↔
      ∃ t, info.heldType? d = some t ∧ d.storage.kind.Opposes t) := by
  have type := varType_held read resolved node
  refine ⟨fun word s t known => ⟨Storage.ofToken?_of known, s.typeOf_makes_iff t, Storage.typeOf_of_opposes⟩,
    fun t held => ?_, ?_⟩
  · rw [held] at type
    rw [type]
    exact ⟨d.storage.typeOf_makes_iff t, Storage.typeOf_of_opposes⟩
  · rw [type]
    cases held : info.heldType? d with
    | none =>
      refine iff_of_false (Storage.Kind.not_opposes_unknown _ _) ?_
      rintro ⟨t, found, -⟩
      cases found
    | some t =>
      dsimp only
      rw [d.storage.opposes_typeOf]
      simp

end

/-- Smart pointers that are passed on to variables of the other owner. -/
def handedText : String := "class W {}
fn f() {
  autoptr p = new W();
  uniqueptr q = p;
  uniqueptr u = new W();
  autoptr v = u;
}
"

/-- A variable of this name that is to have the owner `unique` and has the other one. -/
def Info.crosses (info : Info) (x : String) (kind : Storage.Kind) (unique : Bool) (text : String) : Node → Bool
  | .var d => d.name == x && d.storage.kind == kind && decide ((info.varType d).OwnedBy !unique) &&
    (info.varType d).cpp == text && (info.heldType? d).any fun t => decide (t.OwnedBy !unique)
  | _ => false

theorem handedText_resolved :
    (resolved? Table.default "main.tasty" handedText).any (fun (file, info) =>
      file.nodes.any (info.crosses "q" .unique true "std::shared_ptr<W>") &&
        file.nodes.any (info.crosses "v" .shared false "std::unique_ptr<W>")) = true := by
  rw [resolved?, handedText, File.read_ofList]
  decide +kernel

theorem Info.crosses_var {info : Info} {x text : String} {kind : Storage.Kind} {unique : Bool} {n : Node}
    (h : info.crosses x kind unique text n = true) : ∃ d t, n = .var d ∧ d.storage.kind = kind ∧
      (info.varType d).OwnedBy (!unique) ∧ (info.varType d).cpp = text ∧ info.heldType? d = some t ∧
        t.OwnedBy !unique := by
  unfold crosses at h
  split at h
  · next d =>
    simp only [Bool.and_eq_true, beq_iff_eq, decide_eq_true_eq, Option.any_eq_true] at h
    obtain ⟨⟨⟨⟨-, kind⟩, owned⟩, text⟩, t, held, owned'⟩ := h
    exact ⟨d, t, rfl, kind, owned, text, held, owned'⟩
  · cases h

theorem Info.varType_honours_iff_of_handed :
    ∃ file info d t, File.read Table.default "main.tasty" handedText = .ok file ∧
      file.resolve Table.default = .ok info ∧ .var d ∈ file.nodes ∧ d.storage.kind = .unique ∧
      info.heldType? d = some t ∧ d.storage.kind.Opposes t ∧ info.varType d = t := by
  obtain ⟨⟨file, info⟩, found, here⟩ := (Option.any_eq_true _ _).mp handedText_resolved
  obtain ⟨here, -⟩ := Bool.and_eq_true_iff.mp here
  obtain ⟨n, node, crosses⟩ := List.any_eq_true.mp here
  obtain ⟨d, t, rfl, kind, -, -, held, owned⟩ := Info.crosses_var crosses
  obtain ⟨read, resolved⟩ := resolved?_some found
  have opposes : d.storage.kind.Opposes t := by
    rw [kind]
    exact owned
  exact ⟨file, info, d, t, read, resolved, node, kind, held, opposes,
    ((varType_honours_iff read resolved node).2.1 t held).2 opposes⟩

/-- A variable that is to own its object alone shares it, and one that is to share it owns it alone. -/
theorem handed_variables_change_owner :
    ∃ file info d e, File.read Table.default "main.tasty" handedText = .ok file ∧
      file.resolve Table.default = .ok info ∧ .var d ∈ file.nodes ∧ .var e ∈ file.nodes ∧
      d.storage.kind = .unique ∧ (info.varType d).OwnedBy false ∧ (info.varType d).cpp = "std::shared_ptr<W>" ∧
      e.storage.kind = .shared ∧ (info.varType e).OwnedBy true ∧
      (info.varType e).cpp = "std::unique_ptr<W>" := by
  obtain ⟨⟨file, info⟩, found, here⟩ := (Option.any_eq_true _ _).mp handedText_resolved
  obtain ⟨here, there⟩ := Bool.and_eq_true_iff.mp here
  obtain ⟨_, node, crosses⟩ := List.any_eq_true.mp here
  obtain ⟨_, node', crosses'⟩ := List.any_eq_true.mp there
  obtain ⟨d, _, rfl, kind, owned, text, -⟩ := Info.crosses_var crosses
  obtain ⟨e, _, rfl, kind', owned', text', -⟩ := Info.crosses_var crosses'
  obtain ⟨read, resolved⟩ := resolved?_some found
  exact ⟨file, info, d, e, read, resolved, node, node', kind, owned, text, kind', owned', text'⟩

end TastyLang
