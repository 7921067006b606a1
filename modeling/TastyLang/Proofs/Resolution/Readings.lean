import Mathlib.Data.List.Nodup
import TastyLang.Proofs.Resolution.Charts
import TastyLang.Proofs.Resolution.Meaning

/-!
# What the written types of signatures stand for

The second pass reads the written types of a file one after the other (`Decl.readingsOf`). What they
stand for follows from the chart of the file, but for abstract bindings: one that was not read yet
stands for nothing. So the order of the declarations shows in the meanings of written types only
through the bindings that each of them has in sight (`Chart.notes_subset`).
-/

namespace TastyLang

/-- A written type with the path of the scope where it is read. -/
structure Reading where
  path : Path
  type : TypeExpr
  /-- the abstract binding that stands for the type from then on -/
  binds : Option String := none

/-- An abstract binding, by the path of its scope and by its name. -/
abbrev BindingKey := Path × String

def Reading.key? (r : Reading) : Option BindingKey := r.binds.map fun name => (r.path, name)

/-! ### What a file reads -/

def FuncDecl.readings (π : Path) (f : FuncDecl) : List Reading :=
  f.params.map (fun q => { path := π, type := q.type }) ++
    f.result.toList.map fun t => { path := π, type := t }

def Item.readings (π : Path) : Item → List Reading
  | .var d => d.type.toList.map fun t => { path := π, type := t }
  | .func f => f.readings π
  | .enum _ | .inject _ _ => []

mutual

def Decl.readings (π : Path) : Decl → List Reading
  | .item i => i.readings π
  | .scope _ name ds => Decl.readingsOf (name :: π) ds
  | .cls _ name bases items =>
    bases.map (fun t => { path := π, type := t }) ++ items.flatMap (Item.readings (name :: π))
  | .abstraction _ name target fs =>
    { path := π, type := target, binds := some name } :: fs.flatMap (FuncDecl.readings (name :: π))
  | .refurbish _ target fs => { path := π, type := target } :: fs.flatMap (FuncDecl.readings π)
  | .includes _ _ _ _ | .assume _ _ _ | .attributeDef _ _ _ _ => []

def Decl.readingsOf (π : Path) : List Decl → List Reading
  | [] => []
  | d :: ds => d.readings π ++ Decl.readingsOf π ds

end

theorem Decl.readingsOf_eq (π : Path) (ds : List Decl) :
    Decl.readingsOf π ds = ds.flatMap (Decl.readings π) := by
  induction ds with
  | nil => rfl
  | cons d ds ih => rw [Decl.readingsOf, ih, List.flatMap_cons]

/-! ### What names stand for -/

/-- What abstract bindings stand for, the last one first. -/
abbrev Bindings := List (BindingKey × Ty)

namespace Chart

variable (c : Chart) (table : Table)

/-- The abstract binding that a dotted name leads to. -/
def binding? (π : Path) (name : String) : Option BindingKey :=
  match table.primitive? name with
  | some _ => none
  | none =>
    match c.lookup? π name with
    | some l =>
      match l.meant with
      | .binding _ => some (l.path, l.name)
      | .type _ | .other => none
    | none => none

/-- What a dotted name stands for, bindings aside. -/
def plainType (π : Path) (name : String) : Ty :=
  match table.primitive? name with
  | some prim => .ofPrimitive prim
  | none =>
    match c.lookup? π name with
    | some l =>
      match l.meant with
      | .type t => t
      | .binding _ | .other => .unknown name
    | none => .unknown name

/-- What a dotted name stands for when bindings stand for `seen`. -/
def nameType (seen : Bindings) (π : Path) (name : String) : Ty :=
  ((c.binding? table π name).bind fun key => seen.lookup key).getD (c.plainType table π name)

/-- What bindings stand for after a reading. -/
def read (seen : Bindings) (r : Reading) : Bindings :=
  match r.key? with
  | some key => (key, r.type.meaning (c.nameType table seen r.path)) :: seen
  | none => seen

def readAll (seen : Bindings) (rs : List Reading) : Bindings := rs.foldl (c.read table) seen

/-- What is noted for written types and their parts. -/
def notes : Bindings → List Reading → List (Span × Ty)
  | _, [] => []
  | seen, r :: rs => r.type.notes (c.nameType table seen r.path) ++ notes (c.read table seen r) rs

/-- For each of some written types, the bindings that it names out of those that stand for something
when it is read. -/
def sights : List BindingKey → List Reading → List (Span × List BindingKey)
  | _, [] => []
  | known, r :: rs =>
    (r.type.span, (r.type.words.filterMap (c.binding? table r.path)).filter (known.contains ·)) ::
      sights (r.key?.toList ++ known) rs

variable {c table}

theorem notes_append (seen : Bindings) (rs rs' : List Reading) : c.notes table seen (rs ++ rs') =
    c.notes table seen rs ++ c.notes table (c.readAll table seen rs) rs' := by
  induction rs generalizing seen with
  | nil => rfl
  | cons r rs ih =>
    simp only [List.cons_append, notes, ih, List.append_assoc]
    rfl

theorem mem_notes {seen : Bindings} {rs : List Reading} {n : Span × Ty} :
    n ∈ c.notes table seen rs ↔ ∃ before r after, rs = before ++ r :: after ∧
      n ∈ r.type.notes (c.nameType table (c.readAll table seen before) r.path) := by
  constructor
  · intro noted
    induction rs generalizing seen with
    | nil => cases noted
    | cons r rs ih =>
      rcases List.mem_append.mp noted with here | later
      · exact ⟨[], r, rs, rfl, here⟩
      · obtain ⟨before, x, after, rfl, here⟩ := ih later
        exact ⟨r :: before, x, after, rfl, here⟩
  · rintro ⟨before, r, after, rfl, here⟩
    rw [notes_append, notes]
    exact List.mem_append_right _ (List.mem_append_left _ here)

theorem lookup_readAll_of_not {key : BindingKey} {rs : List Reading} (seen : Bindings)
    (not : ∀ r ∈ rs, r.key? ≠ some key) :
    (c.readAll table seen rs).lookup key = seen.lookup key := by
  induction rs generalizing seen with
  | nil => rfl
  | cons r rs ih =>
    have first := not r List.mem_cons_self
    refine (ih _ fun x member => not x (List.mem_cons_of_mem _ member)).trans ?_
    unfold read
    cases own : r.key? with
    | none => rfl
    | some key' =>
      have apart : (key == key') = false := by
        rw [beq_eq_false_iff_ne]
        rintro rfl
        exact first own
      simp [List.lookup_cons, apart]

theorem lookup_readAll {key : BindingKey} {before after : List Reading} {r : Reading}
    (seen : Bindings) (own : r.key? = some key) (last : ∀ x ∈ after, x.key? ≠ some key) :
    (c.readAll table seen (before ++ r :: after)).lookup key =
      some (r.type.meaning (c.nameType table (c.readAll table seen before) r.path)) := by
  have split : c.readAll table seen (before ++ r :: after) =
      c.readAll table (c.read table (c.readAll table seen before) r) after := by
    simp [readAll]
  rw [split, lookup_readAll_of_not _ last]
  simp [read, own]

theorem map_fst_sights (known : List BindingKey) (rs : List Reading) :
    (c.sights table known rs).map Prod.fst = rs.map fun r => r.type.span := by
  induction rs generalizing known with
  | nil => rfl
  | cons r rs ih => rw [sights, List.map_cons, ih, List.map_cons]

theorem mem_sights (c : Chart) (table : Table) (before after : List Reading) (r : Reading)
    (known : List BindingKey) :
    ∃ bound : List BindingKey, (∀ key, key ∈ bound ↔ key ∈ known ∨ ∃ x ∈ before, x.key? = some key) ∧
      (r.type.span, (r.type.words.filterMap (c.binding? table r.path)).filter (bound.contains ·)) ∈
        c.sights table known (before ++ r :: after) := by
  induction before generalizing known with
  | nil => exact ⟨known, by simp, List.mem_cons_self⟩
  | cons x before ih =>
    obtain ⟨bound, same, member⟩ := ih (x.key?.toList ++ known)
    refine ⟨bound, fun key => ?_, List.mem_cons_of_mem _ member⟩
    rw [same]
    simp only [List.mem_append, Option.mem_toList, List.mem_cons, exists_eq_or_imp]
    tauto

end Chart

/-! ### Two orders of reading -/

/-- Two orders of the same readings. Every written type is read once, no binding is read twice, and
names lead to the same landmarks in both. -/
structure Reordered (c c' : Chart) (rs rs' : List Reading) : Prop where
  lookup : c.lookup? = c'.lookup?
  mem : ∀ r, r ∈ rs ↔ r ∈ rs'
  once : (rs.map fun r => r.type.span).Nodup
  once' : (rs'.map fun r => r.type.span).Nodup
  keys : ∀ x ∈ rs, ∀ y ∈ rs, ∀ key, x.key? = some key → y.key? = some key → x = y

namespace Reordered

variable {c c' : Chart} {table : Table} {rs rs' : List Reading}

theorem symm (h : Reordered c c' rs rs') : Reordered c' c rs' rs where
  lookup := h.lookup.symm
  mem r := (h.mem r).symm
  once := h.once'
  once' := h.once
  keys x here y there := h.keys x ((h.mem x).mpr here) y ((h.mem y).mpr there)

theorem binding? (h : Reordered c c' rs rs') : c.binding? table = c'.binding? table := by
  funext π name
  unfold Chart.binding?
  rw [h.lookup]

theorem plainType (h : Reordered c c' rs rs') : c.plainType table = c'.plainType table := by
  funext π name
  unfold Chart.plainType
  rw [h.lookup]

theorem lookup_readAll (h : Reordered c c' rs rs') {before first second after : List Reading}
    {r x : Reading} {key : BindingKey} (split : rs = before ++ r :: after)
    (split' : before = first ++ x :: second) (own : x.key? = some key) :
    (c.readAll table [] before).lookup key =
      some (x.type.meaning (c.nameType table (c.readAll table [] first) x.path)) := by
  subst split'
  refine Chart.lookup_readAll [] own fun y member other => ?_
  have listed : ∀ z ∈ x :: second, z ∈ rs := by
    intro z member
    rw [split]
    exact List.mem_append_left _ (List.mem_append_right _ member)
  obtain rfl := h.keys x (listed x List.mem_cons_self) y (listed y (List.mem_cons_of_mem _ member))
    key own other
  have once := h.once
  rw [split, List.append_assoc, List.map_append, List.nodup_append] at once
  exact (List.nodup_cons.mp once.2.1).1
    (List.mem_map_of_mem (List.mem_append_left _ member))

/-- A name that two orders have in sight alike stands for the same in both. -/
theorem nameType_congr (h : Reordered c c' rs rs')
    (sights : (c.sights table [] rs).Perm (c'.sights table [] rs'))
    {before before' after after' : List Reading} {r : Reading} (split : rs = before ++ r :: after)
    (split' : rs' = before' ++ r :: after') {w : String} (word : w ∈ r.type.words) :
    c.nameType table (c.readAll table [] before) r.path w =
      c'.nameType table (c'.readAll table [] before') r.path w := by
  -- a binding in sight is read before: by induction it stands for the same in both orders
  induction n : before.length using Nat.strongRecOn generalizing before before' after after' r w
    with
  | ind n ih =>
    subst n
    unfold Chart.nameType
    rw [h.plainType, ← h.binding?]
    congr 1
    cases leads : c.binding? table r.path w with
    | none => rfl
    | some key =>
      change (c.readAll table [] before).lookup key = (c'.readAll table [] before').lookup key
      have alike : (∃ x ∈ before, x.key? = some key) ↔ ∃ x ∈ before', x.key? = some key := by
        obtain ⟨bound, known, seen⟩ := c.mem_sights table before after r []
        obtain ⟨bound', known', seen'⟩ := c'.mem_sights table before' after' r []
        rw [← split] at seen
        rw [← split'] at seen'
        have seen := sights.mem_iff.mp seen
        have once : ((c'.sights table [] rs').map Prod.fst).Nodup := by
          rw [Chart.map_fst_sights]
          exact h.once'
        have same := List.inj_on_of_nodup_map once seen seen' rfl
        have filters := congrArg Prod.snd same
        rw [← h.binding?] at filters
        have inside : key ∈ r.type.words.filterMap (c.binding? table r.path) :=
          List.mem_filterMap.mpr ⟨w, word, leads⟩
        have both : key ∈ bound ↔ key ∈ bound' := by
          have listed := congrArg (key ∈ ·) filters
          simpa [List.mem_filter, inside] using listed
        simpa [known, known'] using both
      by_cases bound : ∃ x ∈ before, x.key? = some key
      · obtain ⟨x, member, own⟩ := bound
        obtain ⟨y, member', own'⟩ := alike.mp ⟨x, member, own⟩
        have listed : x ∈ rs := by
          rw [split]
          exact List.mem_append_left _ member
        have listed' : y ∈ rs := by
          rw [h.mem, split']
          exact List.mem_append_left _ member'
        obtain rfl := h.keys x listed y listed' key own own'
        obtain ⟨first, second, rfl⟩ := List.append_of_mem member
        obtain ⟨first', second', rfl⟩ := List.append_of_mem member'
        rw [h.lookup_readAll split rfl own, h.symm.lookup_readAll split' rfl own]
        congr 1
        refine TypeExpr.meaning_congr _ fun v here => ?_
        have inner : rs = first ++ x :: (second ++ r :: after) := by
          rw [split, List.append_assoc]
          rfl
        have inner' : rs' = first' ++ x :: (second' ++ r :: after') := by
          rw [split', List.append_assoc]
          rfl
        refine ih first.length ?_ inner inner' here rfl
        simp only [List.length_append, List.length_cons]
        omega
      · have bound' := alike.not.mp bound
        rw [Chart.lookup_readAll_of_not [] fun x member own => bound ⟨x, member, own⟩,
          Chart.lookup_readAll_of_not [] fun x member own => bound' ⟨x, member, own⟩]

theorem notes_subset (h : Reordered c c' rs rs')
    (sights : (c.sights table [] rs).Perm (c'.sights table [] rs')) {n : Span × Ty}
    (noted : n ∈ c.notes table [] rs) : n ∈ c'.notes table [] rs' := by
  obtain ⟨before, r, after, split, here⟩ := Chart.mem_notes.mp noted
  have listed : r ∈ rs' := by
    rw [← h.mem, split]
    simp
  obtain ⟨before', after', split'⟩ := List.append_of_mem listed
  refine Chart.mem_notes.mpr ⟨before', r, after', split', ?_⟩
  rwa [← TypeExpr.notes_congr _ fun w word => h.nameType_congr sights split split' word]

end Reordered

/-! ### Proper types -/

/-- What a name stands for, if it is a type, equals itself. -/
def Meant.Proper : Meant → Prop
  | .type t => t.Proper
  | .binding _ | .other => True

theorem FuncDecl.landmarks_proper {π : Path} {f : FuncDecl} :
    ∀ l ∈ f.landmarks π, l.meant.Proper := by
  unfold FuncDecl.landmarks
  split
  · simp
  · simp [Meant.Proper]

theorem Item.landmarks_proper {π : Path} {i : Item} : ∀ l ∈ i.landmarks π, l.meant.Proper := by
  cases i with
  | func f => exact f.landmarks_proper
  | var d => simp [Item.landmarks, Meant.Proper]
  | enum d => simp [Item.landmarks, Meant.Proper, Ty.Proper]
  | inject info text => simp [Item.landmarks]

mutual

theorem Decl.landmarks_proper (π : Path) : (d : Decl) → ∀ l ∈ d.landmarks π, l.meant.Proper
  | .item i => by
    rw [Decl.landmarks]
    exact i.landmarks_proper
  | .assume _ name kind => by
    rw [Decl.landmarks]
    split
    · simp
    · cases kind <;> simp [AssumeKind.meant, Meant.Proper, Ty.Proper]
  | .scope _ name ds => by
    rw [Decl.landmarks, List.forall_mem_cons]
    exact ⟨trivial, Decl.landmarksOf_proper (name :: π) ds⟩
  | .cls _ name _ items => by
    rw [Decl.landmarks, List.forall_mem_cons]
    refine ⟨trivial, fun l member => ?_⟩
    obtain ⟨i, -, member⟩ := List.mem_flatMap.mp member
    exact i.landmarks_proper l member
  | .abstraction _ name target fs => by
    rw [Decl.landmarks, List.forall_mem_cons]
    refine ⟨trivial, fun l member => ?_⟩
    obtain ⟨f, -, member⟩ := List.mem_flatMap.mp member
    exact f.landmarks_proper l member
  | .attributeDef _ _ _ _ => by simp [Decl.landmarks, Meant.Proper]
  | .includes _ _ _ _ | .refurbish _ _ _ => by simp [Decl.landmarks]

theorem Decl.landmarksOf_proper (π : Path) : (ds : List Decl) →
    ∀ l ∈ Decl.landmarksOf π ds, l.meant.Proper
  | [] => by simp [Decl.landmarksOf]
  | d :: ds => by
    rw [Decl.landmarksOf, List.forall_mem_append]
    exact ⟨Decl.landmarks_proper π d, Decl.landmarksOf_proper π ds⟩

end

namespace Chart

variable {c : Chart} {table : Table}

theorem proper_through? (proper : ∀ l ∈ c.landmarks, l.meant.Proper) {parts : List String}
    {l l' : Landmark} (own : l.meant.Proper) (found : c.through? l parts = some l') :
    l'.meant.Proper := by
  induction parts generalizing l with
  | nil => exact Option.some.inj found ▸ own
  | cons part parts ih =>
    obtain ⟨next, here, rest⟩ := Option.bind_eq_some_iff.mp found
    exact ih (proper next (List.mem_of_find?_eq_some here)) rest

theorem proper_lookup? (proper : ∀ l ∈ c.landmarks, l.meant.Proper) {π : Path} {name : String}
    {l : Landmark} (found : c.lookup? π name = some l) : l.meant.Proper := by
  unfold lookup? at found
  split at found
  · next kind _ =>
    cases found
    cases kind <;> trivial
  · split at found
    · cases found
    · obtain ⟨first, here, rest⟩ := Option.bind_eq_some_iff.mp found
      obtain ⟨π', -, here⟩ := List.exists_of_findSome?_eq_some here
      exact proper_through? proper (proper first (List.mem_of_find?_eq_some here)) rest

theorem proper_plainType (proper : ∀ l ∈ c.landmarks, l.meant.Proper) (π : Path) (name : String) :
    (c.plainType table π name).Proper := by
  unfold plainType
  split
  · unfold Ty.ofPrimitive
    split <;> trivial
  · split
    · next l found =>
      have own := proper_lookup? proper found
      split
      · next t meant => rwa [meant] at own
      · trivial
      · trivial
    · trivial

theorem proper_nameType (proper : ∀ l ∈ c.landmarks, l.meant.Proper) {seen : Bindings}
    (bound : ∀ x ∈ seen, x.2.Proper) (π : Path) (name : String) :
    (c.nameType table seen π name).Proper := by
  unfold nameType
  cases found : (c.binding? table π name).bind fun key => seen.lookup key with
  | none => exact proper_plainType proper π name
  | some t =>
    obtain ⟨key, -, found⟩ := Option.bind_eq_some_iff.mp found
    obtain ⟨before, after, same, -⟩ := List.lookup_eq_some_iff.mp found
    exact bound (key, t) (by simp [same])

theorem proper_notes (proper : ∀ l ∈ c.landmarks, l.meant.Proper) {seen : Bindings}
    (bound : ∀ x ∈ seen, x.2.Proper) (rs : List Reading) :
    ∀ n ∈ c.notes table seen rs, n.2.Proper := by
  induction rs generalizing seen with
  | nil => simp [notes]
  | cons r rs ih =>
    have names : ∀ name, (c.nameType table seen r.path name).Proper :=
      proper_nameType proper bound r.path
    rw [notes, List.forall_mem_append]
    refine ⟨TypeExpr.proper_notes names r.type, ih ?_⟩
    unfold read
    split
    · rw [List.forall_mem_cons]
      exact ⟨TypeExpr.proper_meaning names r.type, bound⟩
    · exact bound

end Chart

end TastyLang
