import Mathlib.Algebra.Ring.Nat
import TastyLang.Text.Decimal
import TastyLang.Text.Pieces

/-!
# Line breaks and digits in a text

`breaks` counts the line ends of a text. A text without any takes no more than the line it starts
on. The numeral of a natural number is a run of digits, and its value is the number.
-/

namespace TastyLang.Text

def breaks (s : String) : Nat := s.toList.count '\n'

/-- A text that ends no line. -/
abbrev OneLine (s : String) : Prop := breaks s = 0

@[simp]
theorem breaks_append (s t : String) : breaks (s ++ t) = breaks s + breaks t := by
  simp [breaks, String.toList_append]

@[simp]
theorem breaks_empty : breaks "" = 0 := rfl

theorem breaks_ofList (cs : List Char) : breaks (String.ofList cs) = cs.count '\n' := by
  simp [breaks]

theorem breaks_repeated (s : String) (n : Nat) : breaks (repeated s n) = n * breaks s := by
  induction n with
  | zero => simp [repeated]
  | succ n ih => rw [repeated, breaks_append, ih, Nat.succ_mul, Nat.add_comm]

theorem breaks_join {sep : String} (one : OneLine sep) (ss : List String) :
    breaks (join sep ss) = (ss.map breaks).sum := by
  induction ss with
  | nil => rfl
  | cons s rest ih =>
    cases rest with
    | nil => simp [join]
    | cons t rest =>
      have split : join sep (s :: t :: rest) = s ++ sep ++ join sep (t :: rest) := rfl
      rw [split, breaks_append, breaks_append, ih, one]
      simp

theorem breaks_concat (ss : List String) : breaks (String.join ss) = (ss.map breaks).sum := by
  have from_ : ∀ s, breaks (ss.foldl (· ++ ·) s) = breaks s + (ss.map breaks).sum := by
    induction ss with
    | nil => simp
    | cons t ss ih =>
      intro s
      rw [List.foldl_cons, ih, breaks_append, List.map_cons, List.sum_cons, Nat.add_assoc]
  unfold String.join
  rw [from_, breaks_empty, Nat.zero_add]

theorem oneLine_concat {ss : List String} (each : ∀ s ∈ ss, OneLine s) :
    OneLine (String.join ss) := by
  rw [OneLine, breaks_concat]
  induction ss with
  | nil => rfl
  | cons s ss ih =>
    obtain ⟨first, rest⟩ := List.forall_mem_cons.mp each
    rw [List.map_cons, List.sum_cons, first, ih rest]

theorem breaks_eq_zero {s : String} : breaks s = 0 ↔ '\n' ∉ s.toList := List.count_eq_zero

theorem oneLine_replaceChar {c : Char} {r s : String} (one : OneLine r) (h : OneLine s) :
    OneLine (replaceChar c r s) := by
  rw [replaceChar, OneLine, breaks_eq_zero, String.toList_ofList, List.mem_flatMap]
  rintro ⟨x, member, inside⟩
  split at inside
  · exact breaks_eq_zero.mp one inside
  · exact breaks_eq_zero.mp h (List.mem_singleton.mp inside ▸ member)

/-! ### Numerals of numbers -/

theorem isDigit_of_isDigit {c : Char} (h : c.isDigit = true) : isDigit c = true := by
  simp only [Char.isDigit, Bool.and_eq_true, decide_eq_true_eq] at h
  simp only [isDigit, Bool.and_eq_true, decide_eq_true_eq]
  exact h

theorem isDigit_toString (n : Nat) : ∀ c ∈ (toString n).toList, isDigit c = true := by
  rw [Nat.toString_eq_repr, Nat.toList_repr]
  intro c member
  exact isDigit_of_isDigit (Nat.isDigit_of_mem_toDigits (b := 10) (by decide) (by decide) member)

theorem toString_ne_nil (n : Nat) : (toString n).toList ≠ [] := by
  rw [Nat.toString_eq_repr, Nat.toList_repr]
  exact Nat.toDigits_ne_nil

theorem digits?_of_isDigit {cs : List Char} (h : ∀ c ∈ cs, isDigit c = true) (acc : Nat) :
    digits? acc cs = some (Nat.ofDigitChars 10 cs acc) := by
  induction cs generalizing acc with
  | nil => rfl
  | cons c cs ih =>
    obtain ⟨first, rest⟩ := List.forall_mem_cons.mp h
    rw [digits?, if_pos first, ih rest, Nat.ofDigitChars_cons, Nat.mul_comm acc]
    rfl

theorem natural?_toString (n : Nat) : natural? (toString n).toList = some n := by
  have all := digits?_of_isDigit (isDigit_toString n) 0
  rw [natural?, all]
  · rw [Nat.toString_eq_repr, Nat.toList_repr, Nat.ofDigitChars_ten_toDigits]
  · exact toString_ne_nil n

theorem integer?_toString {n : Nat} (small : n < 0x8000000000000000) :
    integer? (toString n) = some (n : Int) := by
  have fits : fitsWord n = true := by
    simp only [fitsWord, Bool.and_eq_true, decide_eq_true_eq]
    omega
  have digits := isDigit_toString n
  have value := natural?_toString n
  unfold integer?
  generalize (toString n).toList = cs at digits value
  split
  · exact absurd (digits '-' List.mem_cons_self) (by decide)
  · exact absurd (digits '+' List.mem_cons_self) (by decide)
  · simp [value, fits]

end TastyLang.Text
