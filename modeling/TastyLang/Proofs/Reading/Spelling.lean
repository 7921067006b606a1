import TastyLang.Proofs.Reading.Brackets
import TastyLang.Proofs.Reading.Grouping

/-!
# How types are written

The text of a type is taken apart into the tokens that it can be read from, with closing brackets
one by one. `TypeExpr.Spells t as` says that `t` is written as tokens that split into `as`, and that
a type which is read from such tokens is `t`. There is a lemma for each way to build a type.
-/

namespace TastyLang

open Token (Form Tail Scans)

/-- The kinds of token that types are made of, besides closing brackets. -/
def Token.Kind.ofTypes : List Token.Kind :=
  [.ident, .number, .keyword .kFn, .op .openParen, .op .closeParen, .op .less, .op .dot, .op .comma,
    .op .arrow, .op .star]

/-- A closing bracket, or something else that types are made of. -/
def Token.Form.InType (f : Form) : Prop := f = .greater ∨ f.kind ∈ Kind.ofTypes

theorem Token.Form.inType_op {o : Operator} (mark : Kind.op o ∈ Kind.ofTypes) :
    (Form.op o).InType := .inr mark

/-! ### Names -/

/-- A name with dots, and what it is made of. -/
inductive Dotted : String → List Form → Prop where
  | word {w : String} : Token.IsName w → Dotted w [⟨.ident, w⟩]
  | dot {s w : String} {fs : List Form} : Dotted s fs → Token.IsName w →
      Dotted (s ++ "." ++ w) (fs ++ [.op .dot, ⟨.ident, w⟩])

theorem Token.IsName.head {w : String} (name : Token.IsName w) (rest : List Char) :
    ∀ d ∈ (w.toList ++ rest).head?, Token.isWordStart d = true := by
  obtain ⟨-, c, cs, text, start, -⟩ := name
  rw [text]
  rintro d ⟨⟩
  exact start

variable {rear : Token.Stream}

theorem Dotted.scans {s : String} {fs : List Form} (name : Dotted s fs) {ok : Token.Kind → Prop}
    {rest : List Char} {k : List Form} (ends : ∀ d ∈ rest.head?, Token.isWordChar d = false)
    (next : Scans rear Token.Kind.Any rest k) : Scans rear ok (s.toList ++ rest) (fs ++ k) := by
  induction name generalizing rest k with
  | word name => exact Token.scans_name name ends next
  | @dot s w fs _ name ih =>
    have word : Scans rear Token.Kind.Any (w.toList ++ rest) (⟨.ident, w⟩ :: k) :=
      Token.scans_name name ends next
    have apart : ∀ d ∈ (w.toList ++ rest).head?, Operator.dot.goesOn d = false := fun d head =>
      Token.goesOn_dot (by rintro rfl; cases name.head rest _ head)
    have dotted : Scans rear Token.Kind.Any ('.' :: (w.toList ++ rest)) (.op .dot :: ⟨.ident, w⟩ :: k) :=
      Token.scans_dot apart word
    have found := ih (fun d same => by cases same; rfl) dotted
    simp only [String.toList_append, List.append_assoc]
    exact found

theorem Dotted.marks {s : String} {fs : List Form} (name : Dotted s fs) : ∀ f ∈ fs, f.InType := by
  have word (w : String) : (⟨.ident, w⟩ : Form).InType := .inr (by simp [Token.Kind.ofTypes])
  induction name with
  | word _ => exact List.forall_mem_singleton.mpr (word _)
  | dot _ _ ih =>
    exact List.forall_mem_append.mpr ⟨ih, List.forall_mem_cons.mpr
      ⟨Token.Form.inType_op (by decide), List.forall_mem_singleton.mpr (word _)⟩⟩

theorem Dotted.first {s : String} {fs : List Form} (name : Dotted s fs) :
    ∃ w gs, fs = ⟨.ident, w⟩ :: gs := by
  induction name with
  | word _ => exact ⟨_, _, rfl⟩
  | dot _ _ ih =>
    obtain ⟨w, gs, rfl⟩ := ih
    exact ⟨w, _, rfl⟩

theorem Dotted.start {s : String} {fs : List Form} (name : Dotted s fs) :
    ∃ c cs, s.toList = c :: cs ∧ Token.isWordStart c = true := by
  induction name with
  | word name =>
    obtain ⟨-, c, cs, text, start, -⟩ := name
    exact ⟨c, cs, text, start⟩
  | dot _ _ ih =>
    obtain ⟨c, cs, text, start⟩ := ih
    exact ⟨c, _, by rw [String.toList_append, String.toList_append, text]; rfl, start⟩

theorem Dotted.effort {s : String} {fs : List Form} (name : Dotted s fs) :
    Reader.effort fs = fs.length := by
  induction name with
  | word _ => rfl
  | dot _ _ ih =>
    rw [Reader.effort_append, ih, List.length_append]
    rfl

/-- One more word of a name. -/
def Reader.dotStep (acc : String) : Reader (Option String) := do
  if (← checkOp .dot) && (← nextKind) == .ident then
    advance
    return some (acc ++ "." ++ (← name))
  return none

namespace Dotted

variable {behind : List Form → Prop} {bs : List Form} {good : String → Prop} {s w : String}
  {fs : List Form} {m n : Nat}

open Reader in
theorem restores_dot (next : Restores behind (iterate dotStep m (s ++ "." ++ w)) bs good) :
    Restores behind (iterate dotStep (m + 1) s) (.op .dot :: ⟨.ident, w⟩ :: bs) good := by
  have step : Restores (fun _ => True) (dotStep s) [.op .dot, ⟨.ident, w⟩]
      (· = some (s ++ "." ++ w)) := by
    refine restores_check (by decide) (restores_nextKind (by decide) nofun ?_)
    exact restores_advance (by decide) (restores_name (.pure rfl))
  exact step.bind (fun _ _ => trivial) fun _ same => same ▸ next

open Reader in
theorem restores_words (name : Dotted s fs) (steps : fs.length ≤ n)
    (next : ∀ m, n < m + fs.length → Restores behind (iterate dotStep m s) bs good) :
    Restores behind (dottedName n) (fs ++ bs) good := by
  induction name generalizing bs with
  | word name => exact restores_name (next n (Nat.lt_succ_self n))
  | @dot s w fs _ _ ih =>
    rw [List.append_assoc]
    rw [List.length_append] at steps next
    refine ih (Nat.le_of_add_right_le steps) fun m less => ?_
    have two : [Form.op .dot, ⟨.ident, w⟩].length = 2 := rfl
    obtain ⟨m, rfl⟩ : ∃ m', m = m' + 1 := ⟨m - 1, by omega⟩
    exact restores_dot (next m (by omega))

open Reader in
theorem restores (name : Dotted s fs) (steps : fs.length ≤ n)
    (stops : ∀ k, behind k → (Form.first k).kind ≠ .op .dot) :
    Restores behind (dottedName n) fs (· = s) := by
  rw [← List.append_nil fs]
  refine name.restores_words steps fun m less => ?_
  obtain ⟨m, rfl⟩ : ∃ m', m = m' + 1 := ⟨m - 1, by omega⟩
  have step : Restores behind (dotStep s) [] (· = none) := by
    exact restores_checkNot nofun stops fun c _ splits _ => ⟨none, c, rfl, splits, rfl⟩
  exact step.bind (fun _ fits => fits) fun _ same => same ▸ .pure rfl

end Dotted

/-! ### Types -/

namespace TypeExpr

/-- What stands behind a type. -/
def Ends (k : List Form) : Prop :=
  (Form.first k).kind ∉ [.op .star, .op .dot, .op .less, .op .arrow]

theorem ends_of {f : Form} {k : List Form}
    (other : f.kind ∉ [.op .star, .op .dot, .op .less, .op .arrow]) : Ends (f :: k) :=
  other

theorem Ends.starred {fs : List Form} {k : Nat} (ends : Ends fs) :
    (Form.first (List.replicate k (.op .star) ++ fs)).kind ∉ [.op .dot, .op .less, .op .arrow] := by
  cases k with
  | zero => exact fun found => ends (List.mem_cons_of_mem _ found)
  | succ k =>
    show (Form.op .star).kind ∉ _
    decide

/-- A type or a number is written as tokens that split into `as`. -/
structure Writes (t : TypeExpr) (as : List Form) : Prop where
  head : ∃ f as', as = f :: as' ∧ f.kind ∈ [.ident, .number, .op .openParen, .keyword .kFn]
  start : ∃ c cs, t.text.toList = c :: cs ∧ c ∉ ['=', '<']
  marks : ∀ f ∈ as, f.InType
  scans : ∀ rear cs k, Tail rear cs k → Scans rear Token.Kind.Opens (t.text.toList ++ cs) (as ++ k)

/-- A type is written as tokens that split into `as`, and read from them. -/
structure Spells (t : TypeExpr) (as : List Form) : Prop extends t.Writes as where
  word : (Form.first as).kind ≠ .number
  reads : ∀ n, Reader.effort as < n →
    Reader.Restores Ends (Reader.type n) as fun t' => t'.bare = t.bare

/-- A template argument is written as tokens that split into `as`, and read from them. -/
structure Argues (t : TypeExpr) (as : List Form) : Prop extends t.Writes as where
  reads : ∀ n, Reader.effort as < n →
    Reader.Restores Ends (Reader.templateArg (Reader.type n)) as fun t' => t'.bare = t.bare

/-- Some of them with commas in between. -/
inductive Lists (spells : TypeExpr → List Form → Prop) : List TypeExpr → List Form → Prop where
  | nil : Lists spells [] []
  | single {t : TypeExpr} {as : List Form} : spells t as → Lists spells [t] as
  | cons {t u : TypeExpr} {ts : List TypeExpr} {as bs : List Form} : spells t as →
      Lists spells (u :: ts) bs → Lists spells (t :: u :: ts) (as ++ .op .comma :: bs)

variable {t : TypeExpr}

theorem Spells.argues {as : List Form} (h : t.Spells as) : t.Argues as := by
  refine ⟨h.toWrites, fun n steps => ?_⟩
  obtain ⟨f, as, rfl, head⟩ := h.head
  have plain : f ≠ .greater := by
    rintro rfl
    simp [Form.greater, Form.op] at head
  refine Reader.restores_current plain fun p => ?_
  rw [if_neg (by simpa using h.word)]
  exact h.reads n steps

theorem Argues.number {w : String} {span : Span} (number : Token.IsNumber w) :
    Argues (named span w [] 0) [⟨.number, w⟩] := by
  refine ⟨⟨⟨_, _, rfl, by simp⟩, ?_, ?_, fun rear cs k tail => ?_⟩, fun n _ => ?_⟩
  · obtain ⟨c, cs, start, first, -⟩ := number
    refine ⟨c, cs, by rw [text, Text.repeated, String.append_empty, start], fun same => ?_⟩
    simp only [List.mem_cons, List.not_mem_nil, or_false] at same
    rcases first with rfl | digit
    · exact absurd same (by decide)
    · rcases same with rfl | rfl <;> cases digit
  · exact List.forall_mem_singleton.mpr (.inr (by simp [Token.Kind.ofTypes]))
  · rw [text, Text.repeated, String.append_empty]
    exact Token.scans_number number tail.stops tail.scans
  · refine Reader.restores_current (by rintro ⟨⟩) fun p => ?_
    rw [if_pos (by rfl)]
    refine Reader.restores_advance (by rintro ⟨⟩) (Reader.restores_spanFrom fun span => .pure ?_)
    simp only [bare]

section

variable {spells : TypeExpr → List Form → Prop} {ts : List TypeExpr} {as : List Form}

theorem Lists.marks (writes : ∀ {t as}, spells t as → t.Writes as) (h : Lists spells ts as) :
    ∀ f ∈ as, f.InType := by
  induction h with
  | nil => exact fun _ member => nomatch member
  | single h => exact (writes h).marks
  | cons h _ ih =>
    exact List.forall_mem_append.mpr ⟨(writes h).marks,
      List.forall_mem_cons.mpr ⟨Token.Form.inType_op (by decide), ih⟩⟩

theorem Lists.scans (writes : ∀ {t as}, spells t as → t.Writes as) (h : Lists spells ts as)
    {k : List Form} {cs : List Char} (tail : Tail rear cs k) :
    Scans rear Token.Kind.Opens ((textList ts).toList ++ cs) (as ++ k) := by
  induction h with
  | nil => exact tail.scans.anywhere
  | single h => exact (writes h).scans rear cs k tail
  | @cons t u ts as bs h _ ih =>
    have found := (writes h).scans rear _ _ (.comma ih)
    rw [textList]
    · simp only [String.toList_append, List.append_assoc]
      exact found
    · nofun

theorem Lists.start (writes : ∀ {t as}, spells t as → t.Writes as) (h : Lists spells ts as)
    (some : ts ≠ []) (rest : List Char) :
    ∀ d ∈ ((textList ts).toList ++ rest).head?, d ∉ ['=', '<'] := by
  cases h with
  | nil => exact absurd rfl some
  | single h =>
    obtain ⟨c, cs, text, other⟩ := (writes h).start
    rw [textList, text]
    rintro d ⟨⟩
    exact other
  | @cons t u ts as bs h _ =>
    obtain ⟨c, cs, text, other⟩ := (writes h).start
    rw [textList, String.toList_append, String.toList_append, text]
    · rintro d ⟨⟩
      exact other
    · nofun

end

section

open Reader

variable {ts : List TypeExpr} {as : List Form} {m n : Nat} {opener : Token}

theorem Writes.first {β : Type} (h : t.Writes as) {x : Token.Kind} {g : Bool → Reader β}
    {bs : List Form} {behind : List Form → Prop} {good : β → Prop}
    (other : x ∉ [.op .shiftRight, .ident, .number, .op .openParen, .keyword .kFn])
    (next : Restores behind (g false) (as ++ bs) good) :
    Restores behind (check x >>= g) (as ++ bs) good := by
  obtain ⟨f, as, rfl, head⟩ := h.head
  rw [List.mem_cons, not_or] at other
  refine restores_checkNot other.1 (fun k _ => ?_) next
  rintro rfl
  exact other.2 head

theorem Writes.effort_pos (h : t.Writes as) : 0 < effort as := by
  obtain ⟨f, as, rfl, head⟩ := h.head
  rw [effort_cons]
  · exact Nat.succ_pos _
  · rintro rfl
    simp [Form.greater, Form.op] at head

theorem Lists.commaList (h : Lists Spells ts as) (steps : effort as < m) (enough : effort as < n) :
    Restores (fun _ => True) (commaList opener .closeParen (type m) n)
      (as ++ [.op .closeParen]) fun ts' => bareAll ts' = bareAll ts := by
  obtain ⟨n, rfl⟩ : ∃ n', n = n' + 1 := ⟨n - 1, by omega⟩
  induction h generalizing n with
  | nil => exact restores_check (by decide) (restores_close (.pure rfl))
  | @single t as h =>
    refine h.first (by decide) <| h.first (by decide) ?_
    refine (h.reads m steps).bind (fun k _ => ends_of (by decide)) fun t' same => ?_
    refine restores_skip nofun (fun k _ => nofun) (restores_close (.pure ?_))
    simp only [bareAll, same]
  | @cons t u ts as bs h _ ih =>
    rw [effort_append, effort_cons (by decide)] at steps enough
    have some := h.effort_pos
    obtain ⟨n, rfl⟩ : ∃ n', n = n' + 1 := ⟨n - 1, by omega⟩
    rw [List.append_assoc]
    refine h.first (by decide) <| h.first (by decide) ?_
    refine (h.reads m (by omega)).bind (fun k _ => ends_of (by decide)) fun t' same => ?_
    refine restores_accept (by decide) rfl ?_
    show Restores _ _ (bs ++ [.op .closeParen]) _
    rw [← List.append_nil (bs ++ _)]
    refine (ih (by omega) n (by omega)).bind (fun _ _ => trivial) fun ts' same' => .pure ?_
    simp only [bareAll, same, same']

/-- Template arguments are read again, however their bracket is closed. -/
theorem Lists.templateArgs (h : Lists Argues ts as) (some : ts ≠ []) (steps : effort as < m)
    (enough : effort as < n) :
    Restores (fun _ => True) (templateArgs opener (type m) n)
      (as ++ [.greater]) fun ts' => bareAll ts' = bareAll ts := by
  obtain ⟨n, rfl⟩ : ∃ n', n = n' + 1 := ⟨n - 1, by omega⟩
  induction h generalizing n with
  | nil => exact absurd rfl some
  | @single t as h =>
    refine h.first (by decide) ?_
    refine (h.reads m steps).bind (fun k _ => ends_of (by decide)) fun t' same => ?_
    refine restores_skip nofun (fun k _ => nofun) ?_
    refine closeTemplate_restores.bind (fun _ _ => trivial) fun _ _ => .pure ?_
    simp only [bareAll, same]
  | @cons t u ts as bs h _ ih =>
    rw [effort_append, effort_cons (by decide)] at steps enough
    have pos := h.effort_pos
    obtain ⟨n, rfl⟩ : ∃ n', n = n' + 1 := ⟨n - 1, by omega⟩
    rw [List.append_assoc]
    refine h.first (by decide) ?_
    refine (h.reads m (by omega)).bind (fun k _ => ends_of (by decide)) fun t' same => ?_
    refine restores_accept (by decide) rfl ?_
    show Restores _ _ (bs ++ [.greater]) _
    rw [← List.append_nil (bs ++ _)]
    refine (ih nofun (by omega) n (by omega)).bind (fun _ _ => trivial) fun ts' same' => .pure ?_
    simp only [bareAll, same, same']

end

section

open Reader

variable {s : String} {ts : List TypeExpr} {as fs : List Form} {k m n : Nat} {span : Span}
  {behind : List Form → Prop}

theorem restores_stars (enough : k < n)
    (stops : ∀ fs, behind fs → (Form.first fs).kind ≠ .op .star) :
    Restores behind (iterate (fun i => do
      if ← acceptOp .star then return some (i + 1)
      return none) n m) (List.replicate k (.op .star)) (· = m + k) := by
  obtain ⟨n, rfl⟩ : ∃ n', n = n' + 1 := ⟨n - 1, by omega⟩
  induction k generalizing m n with
  | zero =>
    rw [List.replicate_zero, ← List.append_nil []]
    have ends : Restores behind (do
        if ← acceptOp .star then return some (m + 1)
        return none) [] (· = none) :=
      restores_skip nofun stops (.pure rfl)
    refine .bind ends (fun _ fits => fits) ?_
    rintro _ rfl
    exact .pure rfl
  | succ k ih =>
    obtain ⟨n, rfl⟩ : ∃ n', n = n' + 1 := ⟨n - 1, by omega⟩
    have step : Restores (fun _ => True) (do
        if ← acceptOp .star then return some (m + 1)
        return none) [.op .star] (· = some (m + 1)) :=
      restores_accept (by decide) rfl (.pure rfl)
    rw [List.replicate_succ, ← List.singleton_append]
    refine step.bind (fun _ _ => trivial) ?_
    rintro _ rfl
    rw [show m + (k + 1) = m + 1 + k by omega]
    exact ih n (by omega)

theorem restores_starred {mk : Nat → Span → TypeExpr} {p : Pos} (enough : k < n)
    (same : ∀ span, (mk k span).bare = t.bare) :
    Restores Ends (Reader.stars n >>= fun k => spanFrom p >>= fun span => pure (mk k span))
      (List.replicate k (.op .star)) fun t' => t'.bare = t.bare := by
  rw [← List.append_nil (List.replicate _ _)]
  have counted : Restores Ends (Reader.stars n) (List.replicate k (.op .star)) (· = 0 + k) :=
    restores_stars enough fun fs ends kind => ends (by simp [kind])
  refine counted.bind (fun _ fits => fits) ?_
  rintro _ rfl
  rw [Nat.zero_add]
  exact restores_spanFrom fun span => .pure (same span)

/-- A name and its arguments, and what they are made of. -/
inductive Applied : String → List TypeExpr → List Form → Prop where
  | plain {s : String} {fs : List Form} : Dotted s fs → Applied s [] fs
  | args {s : String} {ts : List TypeExpr} {fs as : List Form} : Dotted s fs → ts ≠ [] →
      Lists Argues ts as → Applied s ts (fs ++ .op .less :: (as ++ [.greater]))

theorem Applied.first (h : Applied s ts fs) : ∃ w gs, fs = ⟨.ident, w⟩ :: gs := by
  cases h with
  | plain name => exact name.first
  | args name _ _ =>
    obtain ⟨w, gs, rfl⟩ := name.first
    exact ⟨w, _, rfl⟩

theorem Applied.start (h : Applied s ts fs) :
    ∃ c cs, s.toList = c :: cs ∧ Token.isWordStart c = true := by
  cases h with
  | plain name => exact name.start
  | args name _ _ => exact name.start

theorem Applied.restores (h : Applied s ts fs) (enough : effort fs ≤ n)
    (stops : ∀ k, behind k → (Form.first k).kind ∉ [.op .dot, .op .less, .op .arrow]) :
    Restores behind (nameAndArgs n (type n)) fs fun r => r.1 = s ∧ bareAll r.2 = bareAll ts := by
  cases h with
  | plain name =>
    rw [name.effort] at enough
    have words := name.restores enough fun k fits (kind : (Form.first k).kind = _) =>
      stops k fits (by simp [kind])
    rw [← List.append_nil fs]
    refine words.bind (fun _ fits => fits) ?_
    rintro _ rfl
    have other : ∀ k, behind k → (Form.first ([] ++ k)).kind ≠ .op .less :=
      fun k fits (kind : (Form.first k).kind = _) => stops k fits (by simp [kind])
    refine restores_apart (by decide) other fun t kind => ?_
    rw [if_neg (by simpa using kind)]
    exact .pure ⟨rfl, rfl⟩
  | @args _ fs as name some list =>
    rw [effort_append, effort_cons (by decide), effort_append, name.effort] at enough
    have words : Restores (fun k => (Form.first k).kind = .op .less) (dottedName n) fs (· = s) :=
      name.restores (by omega) fun k fits kind => by rw [fits] at kind; cases kind
    refine words.bind (fun _ _ => rfl) ?_
    rintro _ rfl
    refine restores_current (by decide) fun p => ?_
    rw [if_pos (by rfl)]
    refine restores_advance (by decide) ?_
    rw [← List.append_nil (as ++ _)]
    refine (list.templateArgs some (by omega) (by omega)).bind (fun _ _ => trivial) ?_
    exact fun _ same => .pure ⟨rfl, same⟩

theorem Applied.marks (h : Applied s ts fs) : ∀ f ∈ fs, f.InType := by
  cases h with
  | plain name => exact name.marks
  | args name _ list =>
    refine List.forall_mem_append.mpr ⟨name.marks,
      List.forall_mem_cons.mpr ⟨Token.Form.inType_op (by decide), ?_⟩⟩
    exact List.forall_mem_append.mpr
      ⟨list.marks fun h => h.toWrites, List.forall_mem_singleton.mpr (.inl rfl)⟩

theorem Applied.scans (h : Applied s ts fs) {k : List Form} {cs : List Char}
    (tail : Tail rear cs k) :
    Scans rear Token.Kind.Opens ((named span s ts 0).text.toList ++ cs) (fs ++ k) := by
  cases h with
  | plain name =>
    rw [text]
    simp only [String.toList_append, List.append_assoc]
    exact name.scans (fun d head => (tail.stops d head).1) tail.scans
  | @args _ fs as name some list =>
    have inside := list.scans (fun h => h.toWrites) tail.close
    have opened : Scans rear Token.Kind.Any ('<' :: ((textList ts).toList ++ '>' :: cs))
        (.op .less :: (as ++ .greater :: k)) := by
      apply Token.scans_less _ inside
      intro d head
      have first := list.start (fun h => h.toWrites) some _ d head
      simp only [List.mem_cons, List.not_mem_nil, or_false, not_or] at first
      exact Token.goesOn_less first.1 first.2
    rw [text]
    · simp only [String.toList_append, List.append_assoc, List.cons_append]
      apply name.scans _ opened
      rintro d ⟨⟩
      rfl
    · exact some

end

/-! ### How types are written -/

section

open Reader

variable {s : String} {ts : List TypeExpr} {r : TypeExpr} {as bs fs : List Form} {k n : Nat}
  {span : Span}

theorem inType_stars : ∀ f ∈ List.replicate k (Form.op .star), f.InType := by
  intro f member
  rw [List.eq_of_mem_replicate member]
  exact Token.Form.inType_op (by decide)

theorem inType_parens (marks : ∀ f ∈ as, f.InType) :
    ∀ f ∈ .op .openParen :: (as ++ [.op .closeParen]), f.InType :=
  List.forall_mem_cons.mpr ⟨Token.Form.inType_op (by decide), List.forall_mem_append.mpr
    ⟨marks, List.forall_mem_singleton.mpr (Token.Form.inType_op (by decide))⟩⟩

theorem scans_starred {t u : TypeExpr} (starred : t.text = u.text ++ Text.repeated "*" k)
    (scans : ∀ rear cs fs, Tail rear cs fs →
      Scans rear Token.Kind.Opens (u.text.toList ++ cs) (as ++ fs))
    (rear : Token.Stream) (cs : List Char) (fs : List Form) (tail : Tail rear cs fs) :
    Scans rear Token.Kind.Opens (t.text.toList ++ cs) (as ++ List.replicate k (.op .star) ++ fs) := by
  have found := scans rear _ _ (tail.stars k)
  rw [starred, String.toList_append, List.append_assoc, List.append_assoc]
  exact found

theorem text_named :
    (named span s ts k).text = (named span s ts 0).text ++ Text.repeated "*" k := by
  cases ts <;> simp [text, Text.repeated]

theorem text_named_start : ∃ rest, (named span s ts k).text = s ++ rest := by
  cases ts with
  | nil => exact ⟨_, by rw [text]⟩
  | cons t ts =>
    refine ⟨"<" ++ (textList (t :: ts) ++ (">" ++ Text.repeated "*" k)), ?_⟩
    rw [text, String.append_assoc, String.append_assoc, String.append_assoc]
    exact nofun

theorem Spells.named (h : Applied s ts fs) :
    Spells (named span s ts k) (fs ++ List.replicate k (.op .star)) := by
  obtain ⟨w, gs, rfl⟩ := h.first
  refine ⟨⟨⟨_, _, rfl, by simp⟩, ?_, ?_, ?_⟩, nofun, fun n enough => ?_⟩
  · obtain ⟨c, cs, start, word⟩ := h.start
    obtain ⟨rest, text⟩ := text_named_start
    refine ⟨c, _, by rw [text, String.toList_append, start]; rfl, fun same => ?_⟩
    simp only [List.mem_cons, List.not_mem_nil, or_false] at same
    rcases same with rfl | rfl <;> cases word
  · exact List.forall_mem_append.mpr ⟨h.marks, inType_stars⟩
  · exact scans_starred text_named fun _ _ _ tail => h.scans tail
  · rw [effort_append, effort_stars] at enough
    have one := effort_cons (f := ⟨.ident, w⟩) nofun gs
    obtain ⟨n, rfl⟩ : ∃ n', n = n' + 1 := ⟨n - 1, by omega⟩
    have applied := h.restores (n := n) (by omega) fun k fits => fits
    rw [type]
    refine restores_pos fun p => restores_current nofun fun p' => ?_
    refine applied.bind (fun k ends => ends.starred) fun r same => ?_
    refine restores_starred (by omega) fun span => ?_
    simp only [bare, same]

theorem Spells.tuple (h : Lists Spells ts as) : Spells (tuple span ts k)
    (.op .openParen :: (as ++ [.op .closeParen]) ++ List.replicate k (.op .star)) := by
  have marks := h.marks fun h => h.toWrites
  refine ⟨⟨⟨_, _, rfl, by simp [Form.op]⟩, ?_, ?_, ?_⟩, nofun, fun n enough => ?_⟩
  · have whole : (TypeExpr.tuple span ts k).text =
        "(" ++ (textList ts ++ (")" ++ Text.repeated "*" k)) := by
      rw [text, String.append_assoc, String.append_assoc]
    exact ⟨'(', _, by rw [whole, String.toList_append]; rfl, by decide⟩
  · exact List.forall_mem_append.mpr ⟨inType_parens marks, inType_stars⟩
  · have starred : (TypeExpr.tuple span ts k).text =
        (TypeExpr.tuple span ts 0).text ++ Text.repeated "*" k := by simp [text, Text.repeated]
    refine scans_starred starred fun rear cs fs tail => ?_
    have inside := h.scans (fun h => h.toWrites) (Tail.paren tail.scans)
    rw [text]
    simp only [String.toList_append, List.append_assoc, List.cons_append]
    exact Token.scans_open inside
  · rw [effort_append, effort_stars, effort_cons (by decide), effort_append] at enough
    obtain ⟨n, rfl⟩ : ∃ n', n = n' + 1 := ⟨n - 1, by omega⟩
    rw [type]
    refine restores_pos fun p => restores_current (by decide) fun p' => ?_
    refine restores_advance (by decide) ?_
    refine (h.commaList (by omega) (by omega)).bind (fun _ _ => trivial) fun ts' same => ?_
    refine restores_starred (by omega) fun span => ?_
    simp only [bare, same]

theorem Lists.scans_params (h : Lists Spells ts as) {cs : List Char} {ok : Token.Kind → Prop}
    (next : Scans rear Token.Kind.Any cs fs) :
    Scans rear ok ("fn(".toList ++ ((textList ts).toList ++ ')' :: cs))
      (.keyword .kFn :: .op .openParen :: (as ++ .op .closeParen :: fs)) := by
  have inside : Scans rear (· = Token.Kind.ofWord "fn") ('(' :: ((textList ts).toList ++ ')' :: cs)) _ :=
    Token.scans_open (h.scans (fun h => h.toWrites) (Tail.paren next))
  have word : ∀ d ∈ ['n'], Token.isWordChar d = true := List.all_eq_true.mp rfl
  apply Token.scans_word (w := "fn") rfl rfl word _ inside
  rintro d ⟨⟩
  rfl

theorem Lists.restores_params {g : List TypeExpr → Reader TypeExpr} {good : TypeExpr → Prop}
    (h : Lists Spells ts as) (steps : effort as < n)
    (next : ∀ ts', bareAll ts' = bareAll ts → Restores Ends (g ts') bs good) :
    Restores Ends (expectOp .openParen >>= fun opener =>
      Reader.commaList opener .closeParen (type n) n >>= g)
      (.op .openParen :: (as ++ [.op .closeParen]) ++ bs) good := by
  refine restores_expect (by decide) rfl fun opener => ?_
  exact (h.commaList steps steps).bind (fun _ _ => trivial) next

theorem Spells.func (h : Lists Spells ts as) : Spells (func span ts none k)
    (.keyword .kFn :: (.op .openParen :: (as ++ [.op .closeParen]) ++
      List.replicate k (.op .star))) := by
  have marks := h.marks fun h => h.toWrites
  refine ⟨⟨⟨_, _, rfl, by simp [Form.keyword]⟩, ?_, ?_, fun rear cs fs tail => ?_⟩, nofun, ?_⟩
  · have whole : (TypeExpr.func span ts none k).text =
        "fn(" ++ (textList ts ++ (")" ++ Text.repeated "*" k)) := by
      rw [text, String.append_assoc, String.append_assoc]
    exact ⟨'f', _, by rw [whole, String.toList_append]; rfl, by decide⟩
  · exact List.forall_mem_cons.mpr ⟨.inr (by decide),
      List.forall_mem_append.mpr ⟨inType_parens marks, inType_stars⟩⟩
  · have found : Scans rear Token.Kind.Opens _ _ := h.scans_params (tail.stars k).scans
    rw [text]
    simp only [String.toList_append, List.append_assoc, List.cons_append] at found ⊢
    exact found
  · intro n enough
    rw [effort_cons (by decide), effort_append, effort_stars, effort_cons (by decide),
      effort_append] at enough
    obtain ⟨n, rfl⟩ : ∃ n', n = n' + 1 := ⟨n - 1, by omega⟩
    rw [type]
    refine restores_pos fun p => restores_current (by decide) fun p' => ?_
    refine restores_advance (by decide) (h.restores_params (by omega) fun ts' same => ?_)
    refine restores_without (by decide) (fun k ends kind => ?_) ?_
    · exact ends.starred (by rw [kind]; decide)
    · refine restores_starred (by omega) fun span => ?_
      simp only [bare, same]

theorem Spells.arrow (h : Lists Spells ts as) (result : r.Spells bs) :
    Spells (TypeExpr.func span ts (some r) 0)
      (.keyword .kFn :: (.op .openParen :: (as ++ [.op .closeParen]) ++ .op .arrow :: bs)) := by
  have marks := h.marks fun h => h.toWrites
  refine ⟨⟨⟨_, _, rfl, by simp [Form.keyword]⟩, ?_, ?_, fun rear cs fs tail => ?_⟩, by rintro ⟨⟩, ?_⟩
  · have whole : (TypeExpr.func span ts (some r) 0).text =
        "fn(" ++ (textList ts ++ (") -> " ++ (r.text ++ Text.repeated "*" 0))) := by
      rw [text, String.append_assoc, String.append_assoc, String.append_assoc]
    exact ⟨'f', _, by rw [whole, String.toList_append]; rfl, by decide⟩
  · exact List.forall_mem_cons.mpr ⟨.inr (by decide), List.forall_mem_append.mpr
      ⟨inType_parens marks,
        List.forall_mem_cons.mpr ⟨Token.Form.inType_op (by decide), result.marks⟩⟩⟩
  · have found : Scans rear Token.Kind.Opens _ _ :=
      h.scans_params (Token.scans_arrow (result.scans rear cs fs tail))
    rw [text, Text.repeated, String.append_empty]
    simp only [String.toList_append, List.append_assoc, List.cons_append] at found ⊢
    exact found
  · intro n enough
    rw [effort_cons (by decide), effort_append, effort_cons (by decide), effort_cons (by decide),
      effort_append] at enough
    obtain ⟨n, rfl⟩ : ∃ n', n = n' + 1 := ⟨n - 1, by omega⟩
    rw [type]
    refine restores_pos fun p => restores_current (by decide) fun p' => ?_
    refine restores_advance (by decide) (h.restores_params (by omega) fun ts' same => ?_)
    rw [← List.append_nil bs]
    refine restores_after (by rintro ⟨⟩) (result.reads n (by omega)) (fun _ ends => ends) fun r' same' => ?_
    refine restores_starred (k := 0) (by omega) fun span => ?_
    simp only [bare, same, same']

end

end TypeExpr

end TastyLang
