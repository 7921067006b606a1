import TastyLang.Attribute.Expansion
import TastyLang.Token.Scan
import Mathlib.Data.List.TakeWhile
import Mathlib.Logic.Basic

/-!
# Placeholders

`fill` puts the value of every bound placeholder in its place. `substitute` takes each opening bracket
together with the next closing one, so it passes over a placeholder that stands behind a bracket which is
open there; what it makes of a single one says `substituteChars_placeholder`. Texts without such
placeholders are filled (`substitute_fills_iff`).
-/

namespace TastyLang

namespace Attribute

/-- A name in brackets. -/
def placeholder (name : String) : List Char := '[' :: (name.toList ++ [']'])

/-- The value of the placeholder that stands at the head of a text, and what stands behind it. -/
def standing? (env : Env) (cs : List Char) : Option (List Char × List Char) :=
  env.findSome? fun (name, v) => (Text.after? (placeholder name) cs).map (v.toList, ·)

theorem standing?_some {env : Env} {cs v after : List Char}
    (h : standing? env cs = some (v, after)) : ∃ name, cs = placeholder name ++ after := by
  obtain ⟨⟨name, w⟩, -, here⟩ := List.exists_of_findSome?_eq_some h
  obtain ⟨rest, found, same⟩ := Option.map_eq_some_iff.mp here
  cases same
  exact ⟨name, Text.after?_eq_some.mp found⟩

/-- The characters with the value of every bound placeholder in its place. -/
def fillChars (env : Env) (cs : List Char) : List Char :=
  match cs with
  | [] => []
  | c :: rest =>
    match _h : standing? env (c :: rest) with
    | some (v, after) => v ++ fillChars env after
    | none => c :: fillChars env rest
termination_by cs.length
decreasing_by
  · obtain ⟨name, same⟩ := standing?_some _h
    rw [same, placeholder]
    simp only [List.cons_append, List.length_cons, List.length_append]
    omega
  · simp

def fill (text : String) (env : Env) : String := String.ofList (fillChars env text.toList)

/-- Names are made of letters, digits and underscores. -/
def Env.Words (env : Env) : Prop :=
  ∀ name v, env.lookup name = some v → ∀ c ∈ name.toList, Token.isWordChar c = true

/-- The last bracket of a text is an opening one. -/
def leavesOpen (cs : List Char) : Bool :=
  (cs.filter fun c => c = '[' || c = ']').getLast? == some '['

/-- No bound placeholder of the text stands behind a bracket that is open there. -/
def Clear (env : Env) (cs : List Char) : Prop :=
  ∀ before name v after, env.lookup name = some v → cs = before ++ placeholder name ++ after →
    leavesOpen before = false

variable {env : Env} {name : String} {v : String} {cs before after : List Char}

/-! ### Brackets -/

theorem Env.Words.avoids (words : env.Words) (bound : env.lookup name = some v) {c : Char}
    (other : Token.isWordChar c = false) : c ∉ name.toList := by
  intro member
  rw [words name v bound c member] at other
  cases other

theorem Env.Words.noOpening (words : env.Words) (bound : env.lookup name = some v) :
    '[' ∉ name.toList := words.avoids bound (by decide)

theorem Env.Words.noClosing (words : env.Words) (bound : env.lookup name = some v) :
    ']' ∉ name.toList := words.avoids bound (by decide)

theorem leavesOpen_append (cs ds : List Char) : leavesOpen (cs ++ ds) =
    if ds.all fun c => c ≠ '[' && c ≠ ']' then leavesOpen cs else leavesOpen ds := by
  unfold leavesOpen
  rw [List.filter_append, List.getLast?_append]
  split
  · next none =>
    have nothing : (ds.filter fun c => c = '[' || c = ']') = [] := by
      rw [List.filter_eq_nil_iff]
      intro c member
      simpa using List.all_eq_true.mp none c member
    rw [nothing]
    rfl
  · next some =>
    cases last : (ds.filter fun c => c = '[' || c = ']').getLast? with
    | none =>
      refine absurd (List.all_eq_true.mpr fun c member => ?_) some
      have empty := List.filter_eq_nil_iff.mp (List.getLast?_eq_none_iff.mp last) c member
      simpa using empty
    | some c => rfl

theorem leavesOpen_closed (cs ds : List Char) : leavesOpen (cs ++ ']' :: ds) = leavesOpen ds := by
  rw [leavesOpen_append, if_neg (by simp)]
  unfold leavesOpen
  rw [List.filter_cons_of_pos (by decide)]
  cases ds.filter fun c => c = '[' || c = ']' with
  | nil => rfl
  | cons c cs => rw [List.getLast?_cons_cons]

theorem leavesOpen_opened (cs : List Char) {ds : List Char} (unclosed : ']' ∉ ds) :
    leavesOpen (cs ++ '[' :: ds) = true := by
  rw [leavesOpen_append]
  simp only [List.all_cons, ne_eq, not_true_eq_false, decide_false, Bool.false_and,
    Bool.false_eq_true, if_false]
  unfold leavesOpen
  simp only [List.filter_cons, decide_true, Bool.true_or, if_true]
  cases last : (ds.filter fun c => c = '[' || c = ']').getLast? with
  | none =>
    rw [List.getLast?_eq_none_iff.mp last]
    rfl
  | some c =>
    have member := List.mem_of_getLast? last
    rw [List.mem_filter] at member
    have opening : c = '[' := by
      rcases (by simpa using member.2 : c = '[' ∨ c = ']') with same | same
      · exact same
      · exact absurd (same ▸ member.1) unclosed
    rw [List.getLast?_cons, last, opening]
    rfl

theorem bracketsInduction {motive : List Char → Prop}
    (plain : ∀ cs, '[' ∉ cs → motive cs)
    (opened : ∀ cs ds, '[' ∉ cs → ']' ∉ ds → motive (cs ++ '[' :: ds))
    (pair : ∀ cs ds rest, '[' ∉ cs → ']' ∉ ds → motive rest →
      motive (cs ++ '[' :: (ds ++ ']' :: rest))) (cs : List Char) : motive cs := by
  by_cases opening : '[' ∈ cs
  · obtain ⟨front, behind, same, first⟩ := List.eq_append_cons_of_mem opening
    by_cases closing : ']' ∈ behind
    · obtain ⟨ds, rest, same', next⟩ := List.eq_append_cons_of_mem closing
      have shorter : rest.length < cs.length := by
        simp only [same, same', List.length_append, List.length_cons]
        omega
      rw [same, same']
      exact pair front ds rest first next (bracketsInduction plain opened pair rest)
    · rw [same]
      exact opened front behind first closing
  · exact plain cs opening
termination_by cs.length

/-! ### What is replaced -/

theorem substituteChars_other {c : Char} (other : c ≠ '[') (rest : List Char) :
    substituteChars env (c :: rest) = c :: substituteChars env rest := by
  rw [substituteChars, if_neg other]

theorem substituteChars_plain (plain : '[' ∉ cs) (rest : List Char) :
    substituteChars env (cs ++ rest) = cs ++ substituteChars env rest := by
  induction cs with
  | nil => rfl
  | cons c cs ih =>
    have other : c ≠ '[' := fun same => plain (same ▸ List.mem_cons_self)
    rw [List.cons_append, substituteChars_other other, List.cons_append,
      ih fun member => plain (List.mem_cons_of_mem _ member)]

theorem substituteChars_of_plain (plain : '[' ∉ cs) : substituteChars env cs = cs := by
  induction cs with
  | nil => rw [substituteChars]
  | cons c cs ih =>
    obtain ⟨other, plain⟩ := List.ne_and_not_mem_of_not_mem_cons plain
    rw [substituteChars_other other.symm, ih plain]

theorem substituteChars_opened (unclosed : ']' ∉ cs) :
    substituteChars env ('[' :: cs) = '[' :: cs := by
  have nothing : cs.dropWhile (· ≠ ']') = [] := by
    refine List.dropWhile_eq_nil_iff.mpr fun c member => ?_
    exact decide_eq_true fun same => unclosed (same ▸ member)
  rw [substituteChars, if_pos rfl]
  dsimp only
  split
  · rfl
  · next close after found =>
    rw [nothing] at found
    cases found

theorem substituteChars_pair (unclosed : ']' ∉ cs) (rest : List Char) :
    substituteChars env ('[' :: (cs ++ ']' :: rest)) =
      (match env.lookup (String.ofList cs) with
        | some v => v.toList
        | none => '[' :: (cs ++ [']'])) ++ substituteChars env rest := by
  have inner : ∀ c ∈ cs, decide (c ≠ ']') = true := fun c member =>
    decide_eq_true fun same => unclosed (same ▸ member)
  have taken : (cs ++ ']' :: rest).takeWhile (· ≠ ']') = cs := by
    rw [List.takeWhile_append_of_pos inner, List.takeWhile_cons_of_neg (by decide), List.append_nil]
  have dropped : (cs ++ ']' :: rest).dropWhile (· ≠ ']') = ']' :: rest := by
    rw [List.dropWhile_append_of_pos inner, List.dropWhile_cons_of_neg (by decide)]
  rw [substituteChars, if_pos rfl]
  dsimp only
  rw [taken]
  split
  · next found =>
    rw [dropped] at found
    cases found
  · next close after found =>
    rw [dropped] at found
    cases found
    rfl

theorem substituteChars_append (closed : leavesOpen cs = false) (rest : List Char) :
    substituteChars env (cs ++ rest) = substituteChars env cs ++ substituteChars env rest := by
  induction cs using bracketsInduction with
  | plain cs plain =>
    rw [substituteChars_plain plain, substituteChars_of_plain plain]
  | opened cs ds plain unclosed =>
    rw [leavesOpen_opened cs unclosed] at closed
    cases closed
  | pair cs ds more plain unclosed ih =>
    have last : leavesOpen (cs ++ '[' :: (ds ++ ']' :: more)) = leavesOpen more := by
      rw [show cs ++ '[' :: (ds ++ ']' :: more) = (cs ++ '[' :: ds) ++ ']' :: more by simp]
      exact leavesOpen_closed _ _
    have cut : (cs ++ '[' :: (ds ++ ']' :: more)) ++ rest =
        cs ++ '[' :: (ds ++ ']' :: (more ++ rest)) := by simp
    rw [cut, substituteChars_plain plain, substituteChars_plain plain, substituteChars_pair unclosed,
      substituteChars_pair unclosed, ih (last ▸ closed), List.append_assoc, List.append_assoc]

theorem leavesOpen_cut (opened : leavesOpen cs = true) :
    ∃ front behind, cs = front ++ '[' :: behind ∧ leavesOpen front = false ∧ ']' ∉ behind := by
  induction cs using bracketsInduction with
  | plain cs plain =>
    have last := eq_of_beq opened
    exact absurd (List.mem_filter.mp (List.mem_of_getLast? last)).1 plain
  | opened cs ds plain unclosed =>
    refine ⟨cs, ds, rfl, ?_, unclosed⟩
    refine Bool.eq_false_iff.mpr fun here => plain ?_
    exact (List.mem_filter.mp (List.mem_of_getLast? (eq_of_beq here))).1
  | pair cs ds more plain unclosed ih =>
    have whole : cs ++ '[' :: (ds ++ ']' :: more) = (cs ++ '[' :: ds) ++ ']' :: more := by simp
    rw [whole, leavesOpen_closed] at opened
    obtain ⟨front, behind, rfl, closed, free⟩ := ih opened
    refine ⟨(cs ++ '[' :: ds) ++ ']' :: front, behind, by simp, ?_, free⟩
    rw [leavesOpen_closed, closed]

/-- A bound placeholder is replaced unless a bracket is open in front of it. -/
theorem substituteChars_placeholder (words : env.Words) (bound : env.lookup name = some v) :
    substituteChars env (before ++ placeholder name ++ after) = substituteChars env before ++
      (if leavesOpen before then placeholder name else v.toList) ++ substituteChars env after := by
  split
  · next opened =>
    obtain ⟨front, behind, rfl, closed, unclosed⟩ := leavesOpen_cut opened
    -- the bracket that is open takes the closing one of the placeholder
    have joined : ']' ∉ behind ++ '[' :: name.toList := by
      simp [unclosed, words.noClosing bound]
    have unbound : env.lookup (String.ofList (behind ++ '[' :: name.toList)) = none := by
      cases found : env.lookup (String.ofList (behind ++ '[' :: name.toList)) with
      | none => rfl
      | some w =>
        have opening := words.noOpening found
        simp at opening
    have whole : front ++ '[' :: behind ++ placeholder name ++ after =
        front ++ '[' :: ((behind ++ '[' :: name.toList) ++ ']' :: after) := by simp [placeholder]
    rw [whole, substituteChars_append closed, substituteChars_pair joined, unbound,
      substituteChars_append closed, substituteChars_opened unclosed]
    simp [placeholder]
  · next closed =>
    have whole : placeholder name ++ after = '[' :: (name.toList ++ ']' :: after) := by
      simp [placeholder]
    rw [List.append_assoc, substituteChars_append (Bool.eq_false_iff.mpr closed), whole,
      substituteChars_pair (words.noClosing bound), String.ofList_toList, bound, List.append_assoc]

/-! ### What is filled -/

/-- No bound placeholder stands in the text. -/
def Vacant (env : Env) (cs : List Char) : Prop :=
  ∀ before name v after, env.lookup name = some v → cs ≠ before ++ placeholder name ++ after

theorem Vacant.tail {c : Char} (vacant : Vacant env (c :: cs)) : Vacant env cs :=
  fun before name v after bound same =>
    vacant (c :: before) name v after bound (by rw [same]; rfl)

theorem cut_unique {c : Char} {as bs as' bs' : List Char} (free : c ∉ as) (free' : c ∉ as')
    (same : as ++ c :: bs = as' ++ c :: bs') : as = as' ∧ bs = bs' := by
  induction as generalizing as' with
  | nil =>
    cases as' with
    | nil => exact ⟨rfl, (List.cons.inj same).2⟩
    | cons a as' => exact absurd ((List.cons.inj same).1 ▸ List.mem_cons_self) free'
  | cons a as ih =>
    cases as' with
    | nil => exact absurd ((List.cons.inj same).1 ▸ List.mem_cons_self) free
    | cons a' as' =>
      simp only [List.cons_append, List.cons.injEq] at same
      obtain ⟨rfl, same⟩ := same
      obtain ⟨rfl, rest⟩ := ih (fun member => free (List.mem_cons_of_mem _ member))
        (fun member => free' (List.mem_cons_of_mem _ member)) same
      exact ⟨rfl, rest⟩

theorem placeholder_unique {other : String} {w : String} {after' : List Char} (words : env.Words)
    (bound : env.lookup name = some v) (bound' : env.lookup other = some w)
    (same : placeholder name ++ after = placeholder other ++ after') :
    name = other ∧ after = after' := by
  simp only [placeholder, List.cons_append, List.append_assoc, List.nil_append] at same
  obtain ⟨names, rest⟩ :=
    cut_unique (words.noClosing bound) (words.noClosing bound') (List.cons.inj same).2
  exact ⟨String.toList_inj.mp names, rest⟩

theorem mem_of_lookup {env : Env} (found : env.lookup name = some v) : (name, v) ∈ env := by
  induction env with
  | nil => cases found
  | cons first env ih =>
    rw [List.lookup_cons] at found
    split at found
    · next same =>
      obtain rfl := eq_of_beq same
      cases found
      exact List.mem_cons_self
    · exact List.mem_cons_of_mem first (ih found)

theorem lookup_isSome {env : Env} {e : String × String} (member : e ∈ env) :
    ∃ v, env.lookup e.1 = some v := by
  induction env with
  | nil => cases member
  | cons first env ih =>
    rw [List.lookup_cons]
    split
    · exact ⟨_, rfl⟩
    · next other =>
      rcases List.mem_cons.mp member with rfl | member
      · simp at other
      · exact ih member

theorem standing?_placeholder (words : env.Words) (bound : env.lookup name = some v) :
    standing? env (placeholder name ++ after) = some (v.toList, after) := by
  induction env with
  | nil => cases bound
  | cons first env ih =>
    obtain ⟨other, w⟩ := first
    have own : List.lookup other ((other, w) :: env) = some w := by
      rw [List.lookup_cons]
      simp
    rw [standing?, List.findSome?_cons]
    dsimp only
    by_cases same : name = other
    · subst same
      obtain rfl : w = v := Option.some.inj (own.symm.trans bound)
      rw [Text.after?_eq_some.mpr rfl]
      rfl
    · have apart : Text.after? (placeholder other) (placeholder name ++ after) = none := by
        cases found : Text.after? (placeholder other) (placeholder name ++ after) with
        | none => rfl
        | some rest =>
          exact absurd
            (placeholder_unique words bound own (Text.after?_eq_some.mp found)).1 same
      have later : env.lookup name = some v := by
        rw [List.lookup_cons, beq_eq_false_iff_ne.mpr same] at bound
        exact bound
      rw [apart]
      refine ih (fun n u found => ?_) later
      obtain ⟨u', found'⟩ := lookup_isSome (e := (n, u)) (List.mem_cons_of_mem (other, w)
        (mem_of_lookup found))
      exact words n u' found'

theorem standing?_eq_none
    (absent : ∀ name v after, env.lookup name = some v → cs ≠ placeholder name ++ after) :
    standing? env cs = none := by
  cases found : standing? env cs with
  | none => rfl
  | some r =>
    obtain ⟨⟨name, w⟩, member, here⟩ := List.exists_of_findSome?_eq_some found
    obtain ⟨rest, here, -⟩ := Option.map_eq_some_iff.mp here
    obtain ⟨v, bound⟩ := lookup_isSome member
    exact absurd (Text.after?_eq_some.mp here) (absent name v rest bound)

theorem fillChars_head (words : env.Words) (bound : env.lookup name = some v) :
    fillChars env (placeholder name ++ after) = v.toList ++ fillChars env after := by
  have found : standing? env (placeholder name ++ after) = _ := standing?_placeholder words bound
  rw [placeholder, List.cons_append] at found ⊢
  rw [fillChars]
  split
  · next w rest here =>
    cases here.symm.trans found
    rfl
  · next here => cases here.symm.trans found

theorem fillChars_cons {c : Char} {rest : List Char} (nothing : standing? env (c :: rest) = none) :
    fillChars env (c :: rest) = c :: fillChars env rest := by
  rw [fillChars]
  split
  · next here => cases here.symm.trans nothing
  · rfl

theorem fillChars_vacant (vacant : Vacant env cs) : fillChars env cs = cs := by
  induction cs with
  | nil => rw [fillChars]
  | cons c rest ih =>
    rw [fillChars_cons, ih vacant.tail]
    exact standing?_eq_none fun name v after => vacant [] name v after

theorem standing?_apart (words : env.Words) {c : Char}
    (nothing : standing? env (c :: before) = none) :
    standing? env (c :: (before ++ (placeholder name ++ after))) = none := by
  refine standing?_eq_none fun other w rest bound' same => ?_
  rw [← List.cons_append] at same
  rcases List.append_eq_append_iff.mp same with ⟨more, first, second⟩ | ⟨more, first, -⟩
  · cases more with
    | nil =>
      have here : standing? env (placeholder other ++ []) = _ := standing?_placeholder words bound'
      rw [first, List.append_nil, List.append_nil, nothing] at here
      cases here
    | cons d more =>
      obtain ⟨rfl, -⟩ := List.cons.inj second
      -- the bracket that opens the second one would stand in the name of the first
      have inside : '[' ∈ other.toList ++ [']'] := by
        rw [(List.cons.inj first).2]
        simp
      simp [words.noOpening bound'] at inside
  · have here : standing? env (placeholder other ++ more) = _ := standing?_placeholder words bound'
    rw [← first, nothing] at here
    cases here

theorem fillChars_placeholder (words : env.Words) (bound : env.lookup name = some v) :
    fillChars env (before ++ placeholder name ++ after) =
      fillChars env before ++ v.toList ++ fillChars env after := by
  rw [List.append_assoc, List.append_assoc]
  induction before using fillChars.induct env with
  | case1 =>
    rw [List.nil_append, fillChars_head words bound, fillChars, List.nil_append]
  | case2 c rest w more here ih =>
    obtain ⟨⟨other, u⟩, member, found⟩ := List.exists_of_findSome?_eq_some here
    obtain ⟨more', found, same⟩ := Option.map_eq_some_iff.mp found
    cases same
    obtain ⟨u', bound'⟩ := lookup_isSome member
    rw [Text.after?_eq_some.mp found, List.append_assoc, fillChars_head words bound',
      fillChars_head words bound', ih, List.append_assoc]
  | case3 c rest nothing ih =>
    rw [List.cons_append, fillChars_cons (standing?_apart words nothing), fillChars_cons nothing, ih,
      List.cons_append]

/-! ### Both compared -/

theorem placeholderInduction (env : Env) {motive : List Char → Prop}
    (vacant : ∀ cs, Vacant env cs → motive cs)
    (cut : ∀ before name v after, env.lookup name = some v → motive before → motive after →
      motive (before ++ placeholder name ++ after)) (cs : List Char) : motive cs := by
  by_cases nothing : Vacant env cs
  · exact vacant cs nothing
  · simp only [Vacant, not_forall, not_not] at nothing
    obtain ⟨before, name, v, after, bound, same⟩ := nothing
    have shorter : before.length < cs.length ∧ after.length < cs.length := by
      rw [same, placeholder]
      simp only [List.length_append, List.length_cons, List.length_nil]
      omega
    rw [same]
    exact cut before name v after bound (placeholderInduction env vacant cut before)
      (placeholderInduction env vacant cut after)
termination_by cs.length
decreasing_by
  · exact shorter.1
  · exact shorter.2

theorem substituteChars_vacant (vacant : Vacant env cs) : substituteChars env cs = cs := by
  induction cs using bracketsInduction with
  | plain cs plain => exact substituteChars_of_plain plain
  | opened cs ds plain unclosed => rw [substituteChars_plain plain, substituteChars_opened unclosed]
  | pair cs ds rest plain unclosed ih =>
    have unbound : env.lookup (String.ofList ds) = none := by
      cases found : env.lookup (String.ofList ds) with
      | none => rfl
      | some v =>
        refine absurd ?_ (vacant cs (String.ofList ds) v rest found)
        simp [placeholder]
    have later : Vacant env rest := fun before name v after bound same =>
      vacant (cs ++ '[' :: (ds ++ ']' :: before)) name v after bound (by rw [same]; simp)
    rw [substituteChars_plain plain, substituteChars_pair unclosed, unbound, ih later]
    simp

theorem Clear.front (clear : Clear env (before ++ placeholder name ++ after)) : Clear env before :=
  fun front other w behind bound same =>
    clear front other w (behind ++ (placeholder name ++ after)) bound (by rw [same]; simp)

theorem Clear.behind (clear : Clear env (before ++ placeholder name ++ after)) : Clear env after := by
  intro front other w behind bound same
  have here := clear (before ++ placeholder name ++ front) other w behind bound (by rw [same]; simp)
  have whole : before ++ placeholder name ++ front =
      (before ++ '[' :: name.toList) ++ ']' :: front := by simp [placeholder]
  rwa [whole, leavesOpen_closed] at here

theorem substituteChars_clear (words : env.Words) (clear : Clear env cs) :
    substituteChars env cs = fillChars env cs := by
  induction cs using (placeholderInduction env) with
  | vacant cs vacant => rw [substituteChars_vacant vacant, fillChars_vacant vacant]
  | cut before name v after bound front behind =>
    have closed := clear before name v after bound rfl
    rw [substituteChars_placeholder words bound, fillChars_placeholder words bound, closed,
      front clear.front, behind clear.behind]
    rfl

/-- The values have no bracket that opens. -/
def Env.Bare (env : Env) : Prop := ∀ name v, env.lookup name = some v → '[' ∉ v.toList

theorem count_fillChars_le (words : env.Words) (bare : env.Bare) (cs : List Char) :
    (fillChars env cs).count '[' ≤ (substituteChars env cs).count '[' := by
  induction cs using (placeholderInduction env) with
  | vacant cs vacant => rw [substituteChars_vacant vacant, fillChars_vacant vacant]
  | cut before name v after bound front behind =>
    rw [substituteChars_placeholder words bound, fillChars_placeholder words bound]
    simp only [List.count_append, List.count_eq_zero.mpr (bare name v bound)]
    omega

theorem clear_of_substituteChars (words : env.Words) (bare : env.Bare)
    (same : substituteChars env cs = fillChars env cs) : Clear env cs := by
  rintro before name v after bound rfl
  refine Bool.eq_false_iff.mpr fun opened => ?_
  have counts := congrArg (List.count '[') same
  rw [substituteChars_placeholder words bound, fillChars_placeholder words bound, if_pos opened] at counts
  simp only [List.count_append, List.count_eq_zero.mpr (bare name v bound), placeholder,
    List.count_cons_self] at counts
  have front := count_fillChars_le words bare before
  have behind := count_fillChars_le words bare after
  omega

theorem substitute_eq (text : String) (env : Env) :
    substitute text env = String.ofList (substituteChars env text.toList) := by
  unfold substitute
  split
  · next empty =>
    have vacant : Vacant env text.toList := by
      intro before name v after bound
      rw [List.isEmpty_iff.mp empty] at bound
      cases bound
    rw [substituteChars_vacant vacant, String.ofList_toList]
  · rfl

/-- A bound placeholder is replaced exactly if no bracket is open in front of it, or nothing changes by
it. A text without placeholders behind open brackets is filled, and no other text is as long as the values
have no brackets themselves. -/
theorem substitute_fills_iff (words : env.Words) :
    (∀ before name v after : String, env.lookup name = some v →
      fill (before ++ "[" ++ name ++ "]" ++ after) env = fill before env ++ v ++ fill after env ∧
      (substitute (before ++ "[" ++ name ++ "]" ++ after) env =
          substitute before env ++ v ++ substitute after env ↔
        leavesOpen before.toList = false ∨ v = "[" ++ name ++ "]")) ∧
      (∀ text : String, Clear env text.toList → substitute text env = fill text env) ∧
      ∀ text : String, env.Bare →
        (substitute text env = fill text env ↔ Clear env text.toList) := by
  have chars (before name after : String) : (before ++ "[" ++ name ++ "]" ++ after).toList =
      before.toList ++ placeholder name ++ after.toList := by
    simp [placeholder, String.toList_append]
  have filled (text : String) (clear : Clear env text.toList) :
      substitute text env = fill text env := by
    rw [substitute_eq, fill, substituteChars_clear words clear]
  refine ⟨fun before name v after bound => ⟨?_, ?_⟩, filled, fun text bare => ⟨fun same => ?_, filled text⟩⟩
  · rw [← String.toList_inj]
    simp only [fill, String.toList_append, String.toList_ofList, chars, fillChars_placeholder words bound]
  · rw [← String.toList_inj]
    simp only [substitute_eq, String.toList_append, String.toList_ofList, chars,
      substituteChars_placeholder words bound, List.append_cancel_right_eq, List.append_cancel_left_eq]
    rw [← @String.toList_inj _ ("[" ++ name ++ "]")]
    have own : ("[" ++ name ++ "]").toList = placeholder name := by
      simp [placeholder, String.toList_append]
    rw [own]
    cases leavesOpen before.toList with
    | false => simp
    | true => simp [eq_comm]
  · rw [substitute_eq, fill, String.ofList_inj] at same
    exact clear_of_substituteChars words bare same

/-- In `x[size]` the placeholder is filled, in `data[[size]]` it stays. -/
theorem substitute_fills_iff_of_size :
    substitute "x[size]" [("size", "4")] = fill "x[size]" [("size", "4")] ∧
      substitute "data[[size]]" [("size", "4")] ≠ fill "data[[size]]" [("size", "4")] := by
  have only : ∀ name v, List.lookup name [("size", "4")] = some v → name = "size" ∧ v = "4" :=
    fun name v bound => Prod.mk.inj (List.mem_singleton.mp (mem_of_lookup bound))
  have words : Env.Words [("size", "4")] := by
    intro name v bound
    obtain ⟨rfl, -⟩ := only name v bound
    exact List.all_eq_true.mp rfl
  have bare : Env.Bare [("size", "4")] := by
    intro name v bound
    obtain ⟨-, rfl⟩ := only name v bound
    decide
  have all := (substitute_fills_iff words).2.2
  refine ⟨(all "x[size]" bare).mpr fun before name v after bound same => ?_, fun same => ?_⟩
  · refine Bool.eq_false_iff.mpr fun opened => ?_
    obtain ⟨front, behind, rfl, -, -⟩ := leavesOpen_cut opened
    -- the text has one bracket that opens
    have counts := congrArg (List.count '[') same
    simp [placeholder] at counts
    omega
  · have closed := (all "data[[size]]" bare).mp same "data[".toList "size" "4" "]".toList
      (by decide) (by decide)
    revert closed
    decide

theorem nested_placeholder_stays :
    substitute "data[[size]]" [("size", "4")] = "data[[size]]" ∧
      fill "data[[size]]" [("size", "4")] = "data[4]" := by
  constructor
  · decide +kernel
  · decide +kernel

end Attribute

end TastyLang
