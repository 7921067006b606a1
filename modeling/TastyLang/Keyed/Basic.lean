/-!
# Entries by key

Lists of entries in the order of their keys, each key once. `Keyed.insert` and `Keyed.erase` keep
them so, and `lookup_insert` and `lookup_erase` say what can be found afterwards.
-/

namespace TastyLang

abbrev Keyed (α : Type) := List (String × α)

namespace Keyed

variable {α : Type}

/-- The entries with `k` bound to `v`: in its old place, or where its name belongs. -/
def insert (k : String) (v : α) : Keyed α → Keyed α
  | [] => [(k, v)]
  | (k', v') :: rest =>
    if k = k' then (k, v) :: rest
    else if k < k' then (k, v) :: (k', v') :: rest
    else (k', v') :: insert k v rest

def erase (k : String) (m : Keyed α) : Keyed α := m.filter fun e => e.1 ≠ k

/-- Entries put in order; of two with one key the last counts. -/
def ofList (es : List (String × α)) : Keyed α := es.foldl (fun m e => insert e.1 e.2 m) []

/-! ### Laws -/

theorem lookup_entry (k a : String) (v : α) (m : Keyed α) :
    List.lookup k ((a, v) :: m) = if k = a then some v else m.lookup k := by
  rw [List.lookup_cons]
  by_cases h : k = a
  · simp [h]
  · rw [beq_eq_false_iff_ne.mpr h, if_neg h]

theorem lookup_insert (k k' : String) (v : α) (m : Keyed α) :
    (insert k v m).lookup k' = if k' = k then some v else m.lookup k' := by
  induction m with
  | nil => rw [insert, lookup_entry]
  | cons e rest ih =>
    obtain ⟨ek, ev⟩ := e
    rw [insert, lookup_entry]
    split
    · next h => rw [lookup_entry, h]; split <;> rfl
    · next h =>
      split
      · rw [lookup_entry, lookup_entry]
      · rw [lookup_entry, ih]
        split
        · next h' => rw [if_neg fun e => h (e.symm.trans h')]
        · rfl

theorem lookup_erase (k k' : String) (m : Keyed α) :
    (erase k m).lookup k' = if k' = k then none else m.lookup k' := by
  induction m with
  | nil => simp [erase]
  | cons e rest ih =>
    obtain ⟨ek, ev⟩ := e
    rw [erase] at ih ⊢
    rw [List.filter_cons, lookup_entry]
    by_cases hk : ek = k
    · rw [if_neg (by simp [hk]), ih, hk]
      split <;> simp_all
    · rw [if_pos (by simp [hk]), lookup_entry, ih]
      split
      · next h => rw [if_neg fun e => hk (h.symm.trans e)]
      · rfl

end Keyed

end TastyLang
