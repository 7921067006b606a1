import TastyLang.Emission.Statements
import TastyLang.Proofs.Emission.Texts
import TastyLang.Proofs.Reading.Layout

/-!
# Where statements are written

`Stmt.placements` says where a statement and what is in it belong: a statement of a block on the
line where it starts in the text, a closing brace on the line where it stands, and what follows
`else` on the line of the brace in front of it. A printer that is not below a statement writes it
so and does not get below what follows in the text (`stmt_shows`).
-/

namespace TastyLang

open Text Emission

/-- No line of an injected text starts a directive. -/
def Undirected (text : String) : Prop :=
  ∀ l ∈ cutChars '\n' text.toList, (trimChars l).head? ≠ some '#'

instance (text : String) : Decidable (Undirected text) :=
  inferInstanceAs (Decidable (∀ l ∈ cutChars '\n' text.toList, (trimChars l).head? ≠ some '#'))

mutual

/-- The texts that a statement injects. -/
def Stmt.injected : Stmt → List String
  | .block b => b.injected
  | .branch _ _ _ yes none => yes.injected
  | .branch _ _ _ yes (some s) => yes.injected ++ s.injected
  | .loop _ _ _ body | .count _ _ _ _ _ _ body | .each _ _ _ _ body => body.injected
  | .inject _ text => [text]
  | .expr _ _ | .decl _ _ | .ret _ _ _ _ _ | .brk _ _ | .cont _ _ => []

def Block.injected : Block → List String
  | .mk _ ss _ => Stmt.injectedIn ss

def Stmt.injectedIn : List Stmt → List String
  | [] => []
  | s :: ss => s.injected ++ Stmt.injectedIn ss

end

section

variable (info : Info)

mutual

/-- What a statement places that is written on `line`. Injected text places nothing. -/
def Stmt.placements (line : Int) : Stmt → Except EmitError (List Placement)
  | .block b => b.placements line ""
  | .expr _ x => return [⟨line, (← expr info x) ++ ";"⟩]
  | .decl _ d => return [⟨line, (← variableText info d d.name d.info.modifiers true) ++ ";"⟩]
  | .branch _ negate cond yes none => do
    yes.placements line ("if (" ++ (← condition info cond negate) ++ ") ")
  | .branch _ negate cond yes (some s) => do
    let first ← yes.placements line ("if (" ++ (← condition info cond negate) ++ ") ")
    return first ++ (← s.placements (endLine yes))
  | .loop _ negate cond body => do
    body.placements line ("while (" ++ (← loopCondition info cond negate) ++ ") ")
  | .count span kind name low high step body => do
    body.placements line (← countHead info span kind name low high step)
  | .each span name storage items body => do
    body.placements line (← eachHead info span name storage items)
  | .ret _ value _ effect exit => return [⟨line, ← returnText info value effect exit⟩]
  | .brk _ exit => return [⟨line, releases exit ++ "break;"⟩]
  | .cont _ exit => return [⟨line, releases exit ++ "continue;"⟩]
  | .inject _ _ => return []

/-- What a block places whose opening brace is written behind `head` on `line`. -/
def Block.placements (line : Int) (head : String) : Block → Except EmitError (List Placement)
  | .mk span ss _ => do
    return ⟨line, head ++ "\x7b"⟩ :: (← Stmt.placementsIn ss) ++ [⟨span.stop.line, "\x7d"⟩]

def Stmt.placementsIn : List Stmt → Except EmitError (List Placement)
  | [] => return []
  | s :: ss => do return (← s.placements s.pos.line) ++ (← Stmt.placementsIn ss)

end

end

theorem Block.Lies.pos {p q : Pos} {b : Block} (h : b.Lies p q) : b.span.start = p := by
  cases h
  assumption

theorem Stmt.Lies.pos {p q : Pos} {s : Stmt} (h : s.Lies p q) : s.pos = p := by
  cases h with
  | block b => exact b.pos
  | _ => assumption

/-! ### Injected text -/

theorem length_cutChars (sep : Char) (cs : List Char) :
    (cutChars sep cs).length = cs.count sep + 1 := by
  induction cs with
  | nil => rfl
  | cons c cs ih =>
    rw [cutChars]
    split
    · next same => rw [List.length_cons, ih, same, List.count_cons_self]
    · next other =>
      rw [List.count_cons_of_ne other]
      cases pieces : cutChars sep cs with
      | nil => exact absurd pieces (cutChars_ne_nil sep cs)
      | cons piece rest => rw [pieces] at ih; exact ih

theorem not_mem_cutChars {sep : Char} {cs l : List Char} (member : l ∈ cutChars sep cs) :
    sep ∉ l := by
  induction cs generalizing l with
  | nil =>
    rw [List.mem_singleton.mp member]
    exact List.not_mem_nil
  | cons c cs ih =>
    rw [cutChars] at member
    split at member
    · rcases List.mem_cons.mp member with rfl | member
      · exact List.not_mem_nil
      · exact ih member
    · next other =>
      cases pieces : cutChars sep cs with
      | nil => exact absurd pieces (cutChars_ne_nil sep cs)
      | cons piece rest =>
        rw [pieces] at member ih
        rcases List.mem_cons.mp member with rfl | member
        · intro inside
          rcases List.mem_cons.mp inside with same | inside
          · exact other same.symm
          · exact ih List.mem_cons_self inside
        · exact ih (List.mem_cons_of_mem _ member)

theorem mem_of_mem_trimChars {c : Char} {cs : List Char} (member : c ∈ trimChars cs) : c ∈ cs := by
  unfold trimChars dropLastWhile at member
  rw [List.mem_reverse] at member
  have inside := List.dropWhile_sublist _ |>.subset member
  rw [List.mem_reverse] at inside
  exact List.dropWhile_sublist _ |>.subset inside

namespace Emission

variable {p p' : Printer} {s : String} {u : Unit}

theorem write_ok (h : write s p = .ok (u, p')) :
    p' = p.write s := by
  cases h
  rfl

theorem align_ok {n : Int} (h : align n p = .ok (u, p')) :
    p' = p.align n := by
  cases h
  rfl

variable {ps : List Placement} {line : Int}

theorem injectLine_shows {l : List Char} (one : '\n' ∉ l) (plain : (trimChars l).head? ≠ some '#')
    (shows : p.Shows ps) (above : p.line ≤ line) (h : injectLine line l p = .ok (u, p')) :
    p'.Shows ps ∧ p'.line ≤ line := by
  have inside : '\n' ∉ trimChars l := fun member => one (mem_of_mem_trimChars member)
  unfold injectLine at h
  cases same : trimChars l with
  | nil =>
    rw [same] at h
    obtain ⟨-, rfl⟩ := pure_ok h
    exact ⟨shows, above⟩
  | cons c cs =>
    rw [same] at plain inside h
    have other : c ≠ '#' := fun hash => plain (congrArg some hash)
    obtain ⟨_, _, moved, h⟩ := bind_ok h
    obtain rfl := align_ok moved
    dsimp only at h
    rw [if_neg other] at h
    obtain rfl := write_ok h
    obtain ⟨shows, here⟩ := Printer.align_shows shows above
    refine ⟨Printer.write_shows shows _, ?_⟩
    rw [Printer.write_line, here, breaks_ofList, List.count_eq_zero.mpr inside]
    omega

theorem injectFrom_shows {ls : List (List Char)} {line last : Int}
    (quiet : ∀ l ∈ ls, '\n' ∉ l ∧ (trimChars l).head? ≠ some '#') (shows : p.Shows ps)
    (above : p.line ≤ line) (below : p.line ≤ last) (fits : line + ls.length ≤ last + 1)
    (h : injectFrom line ls p = .ok (u, p')) :
    p'.Shows ps ∧ p'.line ≤ last := by
  induction ls generalizing line p with
  | nil =>
    obtain ⟨-, rfl⟩ := pure_ok h
    exact ⟨shows, below⟩
  | cons l ls ih =>
    obtain ⟨⟨one, plain⟩, rest⟩ := List.forall_mem_cons.mp quiet
    rw [List.length_cons] at fits
    obtain ⟨_, p₁, first, h⟩ := bind_ok h
    obtain ⟨shows, here⟩ := injectLine_shows one plain shows above first
    exact ih rest shows (by omega) (by omega) (by omega) h

theorem inject_shows {text : String} (quiet : Undirected text) (shows : p.Shows ps)
    (above : p.line ≤ line)
    (h : inject line text p = .ok (u, p')) : p'.Shows ps ∧ p'.line ≤ line + breaks text := by
  refine injectFrom_shows (fun l member => ⟨not_mem_cutChars member, quiet l member⟩) shows above
    (by omega) ?_ h
  rw [length_cutChars, breaks]
  omega

/-! ### Statements -/

/-- The printer shows `ps` and then what is placed. -/
def Adds (p : Printer) (ps : List Placement) (placed : Except EmitError (List Placement)) : Prop :=
  ∃ qs, placed = .ok qs ∧ p.Shows (ps ++ qs)

theorem write_adds {p : Printer} (shows : p.Shows ps)
    (solid : Printer.Solid s) : Adds (p.write s) ps (.ok [⟨p.line, s⟩]) :=
  ⟨_, rfl, Printer.write_places shows solid⟩

variable {n : Nat} {pr : Printer}

theorem text_shows {p q : Pos} (shows : pr.Shows ps) (above : pr.line ≤ p.line)
    (room : p.Passes n q) (fits : breaks s ≤ n) (solid : Printer.Solid s) :
    Adds (pr.write s) ps (.ok [⟨pr.line, s⟩]) ∧ (pr.write s).line ≤ q.line := by
  refine ⟨write_adds shows solid, ?_⟩
  have := room.line
  rw [Printer.write_line]
  omega

theorem solid_semicolon : Printer.Solid ";" := ⟨[], ';', rfl, rfl⟩

theorem solid_opening : Printer.Solid "\x7b" := ⟨[], '\x7b', rfl, rfl⟩

theorem solid_closing : Printer.Solid "\x7d" := ⟨[], '\x7d', rfl, rfl⟩

theorem solid_returnText {info : Info} {value : Option Expr} {effect : Bool} {exit : Option Exit}
    (h : returnText info value effect exit = .ok s) : Printer.Solid s := by
  unfold returnText at h
  split at h
  · cases h
    exact Printer.Solid.append ⟨"return".toList, ';', rfl, rfl⟩ _
  · obtain ⟨x, -, h⟩ := except_bind_ok h
    split at h
    · cases h
      exact solid_semicolon.append _
    · split at h
      · cases h
        exact Printer.Solid.append ⟨"; ".toList, '\x7d', rfl, rfl⟩ _
      · cases h
        exact solid_semicolon.append _

theorem deletes_show {os : List Owned} (flat : ∀ o ∈ os, OneLine o.name) (shows : p.Shows ps)
    (here : p.line = line)
    (h : (os.forM fun o => do write (deleteText o); align line : Emitter Unit) p = .ok (u, p')) :
    p'.Shows ps ∧ p'.line = line := by
  induction os generalizing p with
  | nil =>
    obtain ⟨-, rfl⟩ := pure_ok h
    exact ⟨shows, here⟩
  | cons o os ih =>
    obtain ⟨first, rest⟩ := List.forall_mem_cons.mp flat
    obtain ⟨_, _, one, h⟩ := bind_ok h
    obtain ⟨_, _, written, moved⟩ := bind_ok one
    obtain rfl := write_ok written
    obtain rfl := align_ok moved
    have stays : (p.write (deleteText o)).line ≤ line := by
      rw [Printer.write_line, oneLine_deleteText first, here]
      omega
    obtain ⟨shows, here⟩ := Printer.align_shows (Printer.write_shows shows _) stays
    exact ih rest shows here h

variable {info : Info}

theorem endLine_le {p q : Pos} {b : Block} (h : b.Lies p q) : endLine b ≤ q.line := by
  cases h with
  | mk _ _ _ stop closes _ =>
    have := closes.line
    unfold endLine
    rw [Block.span, stop]
    omega

theorem head_breaks (fits : breaks s ≤ n) {word : String} (one : OneLine word) :
    breaks (word ++ s ++ ") ") ≤ n ∧ Printer.Open (word ++ s ++ ") ") := by
  refine ⟨?_, Printer.open_append _ rfl⟩
  rw [breaks_append, breaks_append, one, Nat.zero_add]
  exact fits

theorem breaks_semicolon (fits : breaks s ≤ n) : breaks (s ++ ";") ≤ n := by
  rw [breaks_append]
  exact fits

theorem exit_breaks {exit : Option Exit} (tidy : Exit.Flat exit) {word : String}
    (one : OneLine word) (solid : Printer.Solid word) :
    breaks (releases exit ++ word) ≤ 0 ∧ Printer.Solid (releases exit ++ word) := by
  refine ⟨?_, solid.append _⟩
  exact Nat.le_of_eq (by rw [breaks_append, oneLine_releases tidy, one])

theorem head_above {p m : Pos} (above : pr.line ≤ p.line) (room : p.Passes n m)
    (fits : breaks s ≤ n) : pr.line + breaks s ≤ m.line := by
  have := room.line
  omega

theorem opening_above {p m : Pos} {head : String} (above : pr.line + breaks head ≤ p.line)
    (opens : p.Passes 0 m) :
    (pr.write (head ++ "\x7b")).indent.line ≤ m.line := by
  have := opens.line
  show (pr.write (head ++ "\x7b")).line ≤ m.line
  rw [Printer.write_line, breaks_append, show breaks "\x7b" = 0 from rfl]
  omega

mutual

theorem stmt_shows (spelt : info.Spelt OneLine) {p q : Pos} {s : Stmt} {pr pr' : Printer}
    {ps : List Placement} {u : Unit} : s.Lies p q → (∀ t ∈ s.injected, Undirected t) →
    pr.Shows ps → pr.line ≤ p.line → stmt info s pr = .ok (u, pr') →
    Adds pr' ps (s.placements info pr.line) ∧ pr'.line ≤ q.line
  | .block b, quiet, shows, above, h => by
    obtain ⟨adds, ends⟩ :=
      block_shows spelt b quiet shows Printer.open_empty (by simpa using above) h
    exact ⟨adds, ends ▸ endLine_le b⟩
  | .expr _ x, _, shows, above, h => by
    obtain ⟨t, _, lifted, h⟩ := bind_ok h
    obtain ⟨text, rfl⟩ := lift_ok lifted
    obtain rfl := write_ok h
    have fits := breaks_semicolon (expr_breaks spelt x.2 text)
    rw [Stmt.placements, text]
    exact text_shows shows above x.1 fits (solid_semicolon.append t)
  | .decl _ d, _, shows, above, h => by
    obtain ⟨t, _, lifted, h⟩ := bind_ok h
    obtain ⟨text, rfl⟩ := lift_ok lifted
    obtain rfl := write_ok h
    have fits := breaks_semicolon (variableText_breaks spelt d.value d.name text)
    rw [Stmt.placements, text]
    exact text_shows shows above d.room fits (solid_semicolon.append t)
  | .branch _ cond yes, quiet, shows, above, h => by
    obtain ⟨t, _, lifted, h⟩ := bind_ok h
    obtain ⟨text, rfl⟩ := lift_ok lifted
    obtain ⟨_, _, written, h⟩ := bind_ok h
    obtain rfl := write_ok written
    obtain ⟨_, _, inner, h⟩ := bind_ok h
    obtain ⟨-, rfl⟩ := pure_ok h
    obtain ⟨fits, opened⟩ :=
      head_breaks (condition_breaks spelt cond.2 text) (rfl : OneLine "if (")
    obtain ⟨adds, ends⟩ :=
      block_shows spelt yes quiet shows opened (head_above above cond.1 fits) inner
    rw [Stmt.placements, text]
    exact ⟨adds, ends ▸ endLine_le yes⟩
  | .branches _ cond yes word _ no, quiet, shows, above, h => by
    obtain ⟨t, _, lifted, h⟩ := bind_ok h
    obtain ⟨text, rfl⟩ := lift_ok lifted
    obtain ⟨_, _, written, h⟩ := bind_ok h
    obtain rfl := write_ok written
    obtain ⟨_, p₁, inner, h⟩ := bind_ok h
    obtain ⟨fits, opened⟩ :=
      head_breaks (condition_breaks spelt cond.2 text) (rfl : OneLine "if (")
    have first := fun x inside => quiet x (List.mem_append_left _ inside)
    have second := fun x inside => quiet x (List.mem_append_right _ inside)
    obtain ⟨⟨qs, placed, shows⟩, ends⟩ :=
      block_shows spelt yes first shows opened (head_above above cond.1 fits) inner
    obtain ⟨_, _, written, h⟩ := bind_ok h
    obtain rfl := write_ok written
    -- the word stands on the line of the brace, and so does what follows it
    have here : (p₁.write " else ").line = p₁.line := by
      rw [Printer.write_line]
      exact Int.add_zero _
    have above : (p₁.write " else ").line ≤ _ :=
      Int.le_trans (here.trans ends ▸ endLine_le yes) word.reaches.2
    obtain ⟨⟨rs, more, shows⟩, below⟩ :=
      stmt_shows spelt no second (Printer.write_shows shows " else ") above h
    refine ⟨⟨qs ++ rs, ?_, ?_⟩, below⟩
    · rw [here, ends] at more
      rw [Stmt.placements, text, ok_bind, placed, ok_bind, more]
      rfl
    · rwa [← List.append_assoc]
  | .loop _ room flat body, quiet, shows, above, h => by
    obtain ⟨t, _, lifted, h⟩ := bind_ok h
    obtain ⟨text, rfl⟩ := lift_ok lifted
    obtain ⟨_, _, written, h⟩ := bind_ok h
    obtain rfl := write_ok written
    obtain ⟨fits, opened⟩ :=
      head_breaks (loopCondition_breaks spelt flat text) (rfl : OneLine "while (")
    obtain ⟨adds, ends⟩ :=
      block_shows spelt body quiet shows opened (head_above above room fits) h
    rw [Stmt.placements, text]
    exact ⟨adds, ends ▸ endLine_le body⟩
  | .count _ name room low high step body, quiet, shows, above, h => by
    obtain ⟨t, _, lifted, h⟩ := bind_ok h
    obtain ⟨text, rfl⟩ := lift_ok lifted
    obtain ⟨_, _, written, h⟩ := bind_ok h
    obtain rfl := write_ok written
    obtain ⟨fits, opened⟩ := countHead_breaks spelt name low high step text
    obtain ⟨adds, ends⟩ :=
      block_shows spelt body quiet shows opened (head_above above room fits) h
    rw [Stmt.placements, text]
    exact ⟨adds, ends ▸ endLine_le body⟩
  | .each _ name items body, quiet, shows, above, h => by
    obtain ⟨t, _, lifted, h⟩ := bind_ok h
    obtain ⟨text, rfl⟩ := lift_ok lifted
    obtain ⟨_, _, written, h⟩ := bind_ok h
    obtain rfl := write_ok written
    obtain ⟨fits, opened⟩ := eachHead_breaks spelt name items.2 text
    obtain ⟨adds, ends⟩ :=
      block_shows spelt body quiet shows opened (head_above above items.1 fits) h
    rw [Stmt.placements, text]
    exact ⟨adds, ends ▸ endLine_le body⟩
  | .ret _ room flat tidy, _, shows, above, h => by
    obtain ⟨t, _, lifted, h⟩ := bind_ok h
    obtain ⟨text, rfl⟩ := lift_ok lifted
    obtain rfl := write_ok h
    have fits := returnText_breaks spelt flat tidy text
    rw [Stmt.placements, text]
    exact text_shows shows above room fits (solid_returnText text)
  | .brk _ room tidy, _, shows, above, h => by
    obtain rfl := write_ok h
    obtain ⟨fits, solid⟩ := exit_breaks tidy (rfl : OneLine "break;") ⟨"break".toList, ';', rfl, rfl⟩
    exact text_shows shows above room fits solid
  | .cont _ room tidy, _, shows, above, h => by
    obtain rfl := write_ok h
    obtain ⟨fits, solid⟩ :=
      exit_breaks tidy (rfl : OneLine "continue;") ⟨"continue".toList, ';', rfl, rfl⟩
    exact text_shows shows above room fits solid
  | .inject start room, quiet, shows, above, h => by
    have line := room.line
    rw [← start] at above
    obtain ⟨shows, below⟩ := inject_shows (quiet _ (List.mem_singleton_self _)) shows above h
    rw [start] at below
    exact ⟨⟨[], rfl, by rwa [List.append_nil]⟩, by omega⟩

theorem block_shows (spelt : info.Spelt OneLine) {p q : Pos} {b : Block} {head : String}
    {pr pr' : Printer} {ps : List Placement} {u : Unit} : b.Lies p q →
    (∀ t ∈ b.injected, Undirected t) → pr.Shows ps → Printer.Open head →
    pr.line + breaks head ≤ p.line → block info b (pr.write head) = .ok (u, pr') →
    Adds pr' ps (b.placements info pr.line head) ∧ pr'.line = endLine b
  | @Block.Lies.mk _ _ _ _ span _ _ _ opens inner stop _ flat, quiet, shows, opened, above, h => by
    obtain ⟨_, _, written, h⟩ := bind_ok h
    obtain rfl := write_ok written
    rw [Printer.write_write _ opened (by decide)] at h
    obtain ⟨_, _, indented, h⟩ := bind_ok h
    cases indented
    obtain ⟨_, p₁, body, h⟩ := bind_ok h
    have first := Printer.write_places shows (solid_opening.append head)
    obtain ⟨⟨qs, placed, shows⟩, below⟩ :=
      stmts_show spelt inner quiet (Printer.indent_shows first) (opening_above above opens) body
    obtain ⟨_, _, moved, h⟩ := bind_ok h
    obtain rfl := align_ok moved
    rw [← stop] at below
    obtain ⟨shows, here⟩ := Printer.align_shows shows below
    obtain ⟨_, p₂, gone, h⟩ := bind_ok h
    obtain ⟨shows, here⟩ := deletes_show flat shows here gone
    obtain ⟨_, _, dedented, h⟩ := bind_ok h
    cases dedented
    obtain rfl := write_ok h
    have last := Printer.write_places (Printer.dedent_shows shows) solid_closing
    rw [show p₂.dedent.line = span.stop.line from here] at last
    refine ⟨⟨⟨pr.line, head ++ "\x7b"⟩ :: qs ++ [⟨span.stop.line, "\x7d"⟩], ?_, ?_⟩, ?_⟩
    · rw [Block.placements, placed]
      rfl
    · simpa using last
    · rw [Printer.write_line, show breaks "\x7d" = 0 from rfl]
      show p₂.line + 0 = _
      rw [here, Int.add_zero]
      rfl

theorem stmts_show (spelt : info.Spelt OneLine) {p q : Pos} {ss : List Stmt} {pr pr' : Printer}
    {ps : List Placement} {u : Unit} : Stmt.LieIn p ss q →
    (∀ t ∈ Stmt.injectedIn ss, Undirected t) → pr.Shows ps → pr.line ≤ p.line →
    stmts info ss pr = .ok (u, pr') →
    Adds pr' ps (Stmt.placementsIn info ss) ∧ pr'.line ≤ q.line
  | .nil, _, shows, above, h => by
    obtain ⟨-, rfl⟩ := pure_ok h
    exact ⟨⟨[], rfl, by rwa [List.append_nil]⟩, above⟩
  | .cons first rest, quiet, shows, above, h => by
    obtain ⟨_, _, moved, h⟩ := bind_ok h
    obtain rfl := align_ok moved
    obtain ⟨_, p₁, one, h⟩ := bind_ok h
    rw [← first.pos] at above
    obtain ⟨shows, here⟩ := Printer.align_shows shows above
    have start := fun x inside => quiet x (List.mem_append_left _ inside)
    have later := fun x inside => quiet x (List.mem_append_right _ inside)
    obtain ⟨⟨qs, placed, shows⟩, below⟩ :=
      stmt_shows spelt first start shows (Int.le_of_eq (by rw [here, first.pos])) one
    obtain ⟨⟨rs, more, shows⟩, below⟩ := stmts_show spelt rest later shows below h
    refine ⟨⟨qs ++ rs, ?_, ?_⟩, below⟩
    · rw [here] at placed
      rw [Stmt.placementsIn, placed, more]
      rfl
    · rwa [← List.append_assoc]

end

end Emission

end TastyLang
