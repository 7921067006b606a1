import Mathlib.Data.List.Induction
import TastyLang.Text.Path

/-!
# Paths below a directory

The path along some names from a directory is the row of names behind a text that depends on the
directory alone (`joinPath_join`), so two rows lead to one place only if they are the same.
-/

namespace TastyLang.Text

/-! ### Cutting and joining -/

theorem cutChars_of_not_mem {sep : Char} {cs : List Char} (free : sep ∉ cs) :
    cutChars sep cs = [cs] := by
  induction cs with
  | nil => rfl
  | cons c cs ih =>
    simp only [List.mem_cons, not_or] at free
    rw [cutChars, if_neg (Ne.symm free.1), ih free.2]

theorem cutChars_append (sep : Char) (as bs : List Char) :
    cutChars sep (as ++ sep :: bs) = cutChars sep as ++ cutChars sep bs := by
  induction as with
  | nil => simp [cutChars]
  | cons a as ih =>
    rw [List.cons_append, cutChars, cutChars, ih]
    split
    · rfl
    · cases pieces : cutChars sep as with
      | nil => exact absurd pieces (cutChars_ne_nil sep as)
      | cons piece rest => rfl

theorem cut_append (s t : String) : cut '/' (s ++ "/" ++ t) = cut '/' s ++ cut '/' t := by
  have chars : (s ++ "/" ++ t).toList = s.toList ++ '/' :: t.toList := by simp
  rw [cut, chars, cutChars_append, List.map_append]
  rfl

theorem cut_of_not_mem {s : String} (free : '/' ∉ s.toList) : cut '/' s = [s] := by
  rw [cut, cutChars_of_not_mem free]
  simp

theorem not_mem_of_mem_cut {sep : Char} {s piece : String} (member : piece ∈ cut sep s) :
    sep ∉ piece.toList := by
  have pieces (cs : List Char) : ∀ p ∈ cutChars sep cs, sep ∉ p := by
    induction cs with
    | nil => simp [cutChars]
    | cons c cs ih =>
      rw [cutChars]
      split
      · exact List.forall_mem_cons.mpr ⟨List.not_mem_nil, ih⟩
      · next other =>
        split
        · simpa using Ne.symm other
        · next first rest whole =>
          rw [whole] at ih
          obtain ⟨here, there⟩ := List.forall_mem_cons.mp ih
          exact List.forall_mem_cons.mpr ⟨by simpa [Ne.symm other] using here, there⟩
  obtain ⟨cs, inside, rfl⟩ := List.mem_map.mp member
  rw [String.toList_ofList]
  exact pieces _ cs inside

theorem join_cons {sep s : String} {ss : List String} (ne : ss ≠ []) :
    join sep (s :: ss) = s ++ sep ++ join sep ss := by
  cases ss with
  | nil => exact absurd rfl ne
  | cons t rest => rfl

theorem join_append {sep : String} {ss ts : List String} (ne : ss ≠ []) (ne' : ts ≠ []) :
    join sep (ss ++ ts) = join sep ss ++ sep ++ join sep ts := by
  induction ss with
  | nil => exact absurd rfl ne
  | cons s rest ih =>
    by_cases last : rest = []
    · rw [last, List.singleton_append, join_cons ne']
      rfl
    · rw [List.cons_append, join_cons (by simp [last]), ih last, join_cons last]
      simp only [String.append_assoc]

theorem join_concat (sep : String) (ss : List String) (s t : String) :
    join sep (ss ++ [s]) ++ t = join sep (ss ++ [s ++ t]) := by
  by_cases none : ss = []
  · rw [none]
    rfl
  · rw [join_append none (by simp), join_append none (by simp)]
    simp only [join, String.append_assoc]

theorem cut_join {ss : List String} (ne : ss ≠ []) (free : ∀ s ∈ ss, '/' ∉ s.toList) :
    cut '/' (join "/" ss) = ss := by
  induction ss with
  | nil => exact absurd rfl ne
  | cons s rest ih =>
    obtain ⟨first, others⟩ := List.forall_mem_cons.mp free
    by_cases last : rest = []
    · rw [last]
      exact cut_of_not_mem first
    · rw [join_cons last, cut_append, cut_of_not_mem first, ih last others]
      rfl

theorem join_pieces (s : String) : join "/" (cut '/' s) = s := by
  have pieces (css : List (List Char)) :
      join "/" (css.map String.ofList) = String.ofList (joinChars '/' css) := by
    induction css with
    | nil => rfl
    | cons cs rest ih =>
      cases rest with
      | nil => rfl
      | cons cs' rest =>
        rw [List.map_cons, join_cons (by simp), ih, joinChars_cons (List.cons_ne_nil cs' rest)]
        exact String.toList_inj.mp (by simp)
  rw [cut, pieces, join_cut, String.ofList_toList]

/-! ### Ends of a text -/

theorem dropTail?_append (s t : String) : dropTail? t (s ++ t) = some s := by
  have rest : after? t.toList.reverse (s ++ t).toList.reverse = some s.toList.reverse := by
    rw [after?_eq_some, String.toList_append, List.reverse_append]
  rw [dropTail?, rest]
  simp

theorem dropTail_append (s t : String) : dropTail t (s ++ t) = s := by
  rw [dropTail, dropTail?_append]
  rfl

theorem endsWith_iff {s t : String} : endsWith t s = true ↔ ∃ r, s = r ++ t := by
  constructor
  · intro h
    obtain ⟨cs, rest⟩ := Option.isSome_iff_exists.mp (by simpa [endsWith, dropTail?] using h)
    rw [after?_eq_some] at rest
    refine ⟨String.ofList cs.reverse, String.toList_inj.mp ?_⟩
    simpa using congrArg List.reverse rest
  · rintro ⟨r, rfl⟩
    rw [endsWith, dropTail?_append]
    rfl

theorem startsWith_iff {s t : String} : startsWith t s = true ↔ ∃ r, s = t ++ r := by
  unfold startsWith dropHead?
  rw [Option.isSome_map, Option.isSome_iff_exists]
  constructor
  · rintro ⟨cs, rest⟩
    rw [after?_eq_some] at rest
    exact ⟨String.ofList cs, String.toList_inj.mp (by simpa using rest)⟩
  · rintro ⟨r, rfl⟩
    exact ⟨r.toList, after?_eq_some.mpr (String.toList_append ..)⟩

theorem isAbsolute_iff {s : String} : isAbsolute s = true ↔ ∃ t, s = "/" ++ t := startsWith_iff

theorem isAbsolute_append {s t : String} (ne : s ≠ "") : isAbsolute (s ++ t) = isAbsolute s := by
  rw [Bool.eq_iff_iff, isAbsolute_iff, isAbsolute_iff]
  constructor
  · rintro ⟨r, same⟩
    have chars := congrArg String.toList same
    cases start : s.toList with
    | nil => exact absurd (String.toList_inj.mp start) ne
    | cons c cs =>
      have here : c = '/' := by simpa [start] using congrArg List.head? chars
      exact ⟨String.ofList cs, String.toList_inj.mp (by simp [start, here])⟩
  · rintro ⟨r, rfl⟩
    exact ⟨r ++ t, String.append_assoc ..⟩

/-! ### Names -/

/-- A name of a file or a directory. -/
def IsName (s : String) : Prop := s ≠ "" ∧ s ≠ "." ∧ s ≠ ".." ∧ '/' ∉ s.toList

instance (s : String) : Decidable (IsName s) := inferInstanceAs (Decidable (_ ∧ _))

theorem IsName.append {n ext : String} (named : IsName n) (free : '/' ∉ ext.toList) :
    IsName (n ++ ext) := by
  obtain ⟨nonempty, dot, parent, slash⟩ := named
  have chars (s : String) : n ++ ext = s ↔ n.toList ++ ext.toList = s.toList := by
    rw [← String.toList_inj, String.toList_append]
  have front (s : String) : n = s ↔ n.toList = s.toList := String.toList_inj.symm
  rw [Ne, front] at nonempty dot parent
  refine ⟨?_, ?_, ?_, by simp [slash, free]⟩
  · rw [Ne, chars]
    exact fun same => nonempty (List.append_eq_nil_iff.mp same).1
  · rw [Ne, chars]
    intro same
    obtain ⟨none, -⟩ | ⟨whole, -⟩ := List.append_eq_singleton_iff.mp same
    · exact nonempty none
    · exact dot whole
  · rw [Ne, chars]
    intro same
    obtain ⟨none, -⟩ | ⟨rest, whole, tail⟩ := List.append_eq_cons_iff.mp same
    · exact nonempty none
    · obtain ⟨none, -⟩ | ⟨last, -⟩ := List.append_eq_singleton_iff.mp tail.symm
      · exact dot (by rw [whole, none]; rfl)
      · exact parent (by rw [whole, last]; rfl)

theorem join_ne_empty {names : List String} (ne : names ≠ []) (named : ∀ n ∈ names, IsName n) :
    join "/" names ≠ "" := by
  intro none
  have pieces := cut_join ne fun n member => (named n member).2.2.2
  rw [none] at pieces
  have empty : "" ∈ names := by
    rw [← pieces]
    exact List.mem_singleton_self _
  exact (named _ empty).1 rfl

theorem cleanElements_append {rooted : Bool} {elems names : List String}
    (named : ∀ n ∈ names, IsName n) :
    cleanElements rooted (elems ++ names) = cleanElements rooted elems ++ names := by
  induction names using List.reverseRecOn with
  | nil => simp
  | append_singleton names n ih =>
    have own : IsName n := named n (by simp)
    rw [← List.append_assoc, ← List.append_assoc, ← ih fun m member => named m (by simp [member])]
    obtain ⟨nonempty, nodot, noparent, -⟩ := own
    simp [cleanElements, List.foldl_append, nonempty, nodot, noparent]

theorem cleanElements_proper {rooted : Bool} {elems : List String} :
    ∀ e ∈ cleanElements rooted elems, e ≠ "" ∧ e ≠ "." ∧ e ∈ elems := by
  induction elems using List.reverseRecOn with
  | nil => simp [cleanElements]
  | append_singleton elems last ih =>
    intro e member
    simp only [cleanElements, List.foldl_append, List.foldl_cons, List.foldl_nil,
      List.mem_reverse] at member ih
    have old (h : e ≠ "" ∧ e ≠ "." ∧ e ∈ elems) : e ≠ "" ∧ e ≠ "." ∧ e ∈ elems ++ [last] :=
      ⟨h.1, h.2.1, List.mem_append_left _ h.2.2⟩
    split at member
    · exact old (ih e member)
    · next proper =>
      simp only [Bool.or_eq_true, decide_eq_true_eq, not_or] at proper
      have new (same : e = last) : e ≠ "" ∧ e ≠ "." ∧ e ∈ elems ++ [last] := by
        rw [same]
        exact ⟨proper.1, proper.2, by simp⟩
      split at member
      · next up =>
        split at member
        · split at member
          · cases member
          · exact new ((List.mem_singleton.mp member).trans up.symm)
        · next stack =>
          rcases List.mem_cons.mp member with here | there
          · exact new (here.trans up.symm)
          · exact old (ih e (stack ▸ there))
        · next stack => exact old (ih e (stack ▸ List.mem_cons_of_mem _ member))
      · rcases List.mem_cons.mp member with here | there
        · exact new here
        · exact old (ih e there)

/-- What stands in front of a path that is seen from a directory. -/
def lead (dir : String) : String :=
  if clean dir = "." then "" else if clean dir = "/" then "/" else clean dir ++ "/"

theorem lead_eq (dir : String) :
    lead dir = (if isAbsolute dir then "/" else "") ++
      (if cleanElements (isAbsolute dir) (cut '/' dir) = [] then ""
      else join "/" (cleanElements (isAbsolute dir) (cut '/' dir)) ++ "/") := by
  have cleaned : clean dir =
      if isAbsolute dir then "/" ++ join "/" (cleanElements (isAbsolute dir) (cut '/' dir))
      else if (cleanElements (isAbsolute dir) (cut '/' dir)).isEmpty then "."
      else join "/" (cleanElements (isAbsolute dir) (cut '/' dir)) := rfl
  have proper := @cleanElements_proper (isAbsolute dir) (cut '/' dir)
  generalize cleanElements (isAbsolute dir) (cut '/' dir) = elems at cleaned proper
  by_cases none : elems = []
  · rw [lead, cleaned, none]
    cases isAbsolute dir <;> decide
  · have pieces := cut_join none fun e member => not_mem_of_mem_cut (proper e member).2.2
    have nothing : join "/" elems ≠ "" := fun same =>
      (proper "" (by rw [← pieces, same]; exact List.mem_singleton_self _)).1 rfl
    have dot : join "/" elems ≠ "." := fun same =>
      (proper "." (by rw [← pieces, same]; exact List.mem_singleton_self _)).2.1 rfl
    have slash : join "/" elems ≠ "/" := fun same =>
      (proper "" (by rw [← pieces, same]; exact List.mem_cons_self)).1 rfl
    rw [lead, cleaned, if_neg none]
    cases isAbsolute dir with
    | false => simp [none, dot, slash]
    | true =>
      have root : "/" ++ join "/" elems ≠ "/" := fun same => nothing (by simpa using same)
      have here : "/" ++ join "/" elems ≠ "." := fun same => by
        simpa using congrArg (fun s => s.toList.head?) same
      simp [root, here, String.append_assoc]

theorem joinPath_join {dir : String} {names : List String} (given : dir ≠ "") (ne : names ≠ [])
    (named : ∀ n ∈ names, IsName n) : joinPath [dir, join "/" names] = lead dir ++ join "/" names := by
  have both : [dir, join "/" names].filter (· ≠ "") = [dir, join "/" names] := by
    simp [given, join_ne_empty ne named]
  have free : ∀ n ∈ names, '/' ∉ n.toList := fun n member => (named n member).2.2.2
  have rooted : startsWith "/" (dir ++ "/" ++ join "/" names) = isAbsolute dir := by
    rw [String.append_assoc]
    exact isAbsolute_append given
  have some_ : (cleanElements (isAbsolute dir) (cut '/' dir) ++ names).isEmpty = false := by
    simp [ne]
  have path : join "/" (cleanElements (isAbsolute dir) (cut '/' dir) ++ names) =
      (if cleanElements (isAbsolute dir) (cut '/' dir) = [] then ""
      else join "/" (cleanElements (isAbsolute dir) (cut '/' dir)) ++ "/") ++ join "/" names := by
    split
    · next none => rw [none, List.nil_append, String.empty_append]
    · next elems => rw [join_append elems ne]
  unfold joinPath
  rw [both, lead_eq]
  change clean (dir ++ "/" ++ join "/" names) = _
  unfold clean
  dsimp only
  rw [rooted, cut_append, cut_join ne free, cleanElements_append named, some_, path]
  cases isAbsolute dir <;> simp [String.append_assoc]

/-! ### The way to a path -/

theorem cut_root {names : List String} (ne : names ≠ []) (named : ∀ n ∈ names, IsName n) :
    cut '/' ("/" ++ join "/" names) = "" :: names := by
  have pieces := cut_append "" (join "/" names)
  rw [String.empty_append, cut_join ne fun n member => (named n member).2.2.2] at pieces
  exact pieces

theorem elements_of_cut {path : String} {names : List String} (named : ∀ n ∈ names, IsName n)
    (pieces : cut '/' path = "" :: names) : elements path = names := by
  rw [elements, pieces, List.filter_cons_of_neg (by simp), List.filter_eq_self]
  intro n member
  simpa using (named n member).1

theorem withoutCommon_append (front rest : List String) :
    withoutCommon front (front ++ rest) = ([], rest) := by
  induction front with
  | nil => cases rest <;> rfl
  | cons n front ih => rw [List.cons_append, withoutCommon, if_pos rfl, ih]

theorem relativePath_eq {base path : String} {rest : List String} (ne : rest ≠ [])
    (inside : elements path = elements base ++ rest) : relativePath base path = join "/" rest := by
  rw [relativePath, inside, withoutCommon_append]
  cases rest with
  | nil => exact absurd rfl ne
  | cons n rest => rfl

/-- What starts with a directory lies along some names below it. -/
theorem along_of_startsWith {dir : String} {all : List String} (given : dir ≠ "") (ne : all ≠ [])
    (named : ∀ n ∈ all, IsName n)
    (inside : startsWith (if dir = "/" then "/" else dir ++ "/") ("/" ++ join "/" all) = true) :
    ∃ names, names ≠ [] ∧ (∀ n ∈ names, IsName n) ∧
      relativePath dir ("/" ++ join "/" all) = join "/" names ∧
      "/" ++ join "/" all = lead dir ++ join "/" names := by
  have pieces := cut_root ne named
  by_cases root : dir = "/"
  · refine ⟨all, ne, named, relativePath_eq ne ?_, ?_⟩
    · rw [elements_of_cut named pieces, root]
      rfl
    · rw [root]
      rfl
  · rw [if_neg root, startsWith_iff] at inside
    obtain ⟨r, whole⟩ := inside
    have halves : cut '/' dir ++ cut '/' r = "" :: all := by
      rw [← pieces, whole, cut_append]
    obtain ⟨none, -⟩ | ⟨front, start, rfl⟩ := List.append_eq_cons_iff.mp halves
    · simp [cut, cutChars_ne_nil] at none
    have rest : cut '/' r ≠ [] := by simp [cut, cutChars_ne_nil]
    have dirs : front ≠ [] := by
      rintro rfl
      have same := join_pieces dir
      rw [start] at same
      exact given same.symm
    have namedFront := fun n member => named n (List.mem_append_left _ member)
    have dirEq : dir = "/" ++ join "/" front := by
      rw [← join_pieces dir, start, join_cons dirs]
      rfl
    have absolute : isAbsolute dir = true := isAbsolute_iff.mpr ⟨_, dirEq⟩
    have elems : cleanElements true (cut '/' dir) = front := by
      rw [start]
      exact @cleanElements_append true [""] _ namedFront
    refine ⟨cut '/' r, rest, fun n member => named n (List.mem_append_right _ member), ?_, ?_⟩
    · refine relativePath_eq rest ?_
      rw [elements_of_cut named pieces, elements_of_cut namedFront start]
    · rw [lead_eq, absolute, elems, if_neg dirs, if_pos rfl, whole, join_pieces, ← String.append_assoc,
        ← dirEq]

theorem baseName_join {dirs : List String} {n : String} (named : IsName n) :
    baseName (join "/" (dirs ++ [n])) = n := by
  have chars : ∃ front, (join "/" (dirs ++ [n])).toList = front ++ n.toList ∧
      (front = [] ∨ ∃ init, front = init ++ ['/']) := by
    by_cases none : dirs = []
    · exact ⟨[], by simp [none, join], .inl rfl⟩
    · refine ⟨(join "/" dirs).toList ++ ['/'], ?_, .inr ⟨_, rfl⟩⟩
      rw [join_append none (by simp)]
      simp [join]
  obtain ⟨front, chars, start⟩ := chars
  obtain ⟨nonempty, -, -, free⟩ := named
  have some_ : n.toList ≠ [] := fun h => nonempty (String.toList_inj.mp h)
  have whole : join "/" (dirs ++ [n]) ≠ "" := by
    intro h
    rw [h] at chars
    simp [some_] at chars
  have noslash : ∀ c ∈ n.toList.reverse, c ≠ '/' := by
    rintro c member rfl
    exact free (List.mem_reverse.mp member)
  have kept : (n.toList.reverse ++ front.reverse).dropWhile (· = '/') =
      n.toList.reverse ++ front.reverse := by
    cases rev : n.toList.reverse with
    | nil => exact absurd (List.reverse_eq_nil_iff.mp rev) some_
    | cons c cs =>
      have other : c ≠ '/' := noslash c (rev ▸ List.mem_cons_self)
      rw [List.cons_append, List.dropWhile_cons_of_neg (by simp [other])]
  have last : (n.toList.reverse ++ front.reverse).takeWhile (· ≠ '/') = n.toList.reverse := by
    rw [List.takeWhile_append_of_pos fun c member => by simpa using noslash c member]
    rcases start with rfl | ⟨init, rfl⟩ <;> simp
  unfold baseName
  rw [if_neg whole, chars, List.reverse_append, kept, List.reverse_append, List.reverse_reverse,
    List.reverse_reverse]
  dsimp only
  rw [if_neg (by simp [some_]), List.reverse_append, last, List.reverse_reverse, String.ofList_toList]

end TastyLang.Text
