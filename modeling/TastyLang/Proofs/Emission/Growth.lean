import TastyLang.Proofs.Include.Placement

/-!
# What emitters add

An emitter only adds to what a printer keeps of its output (`Grows`): blanks at the end may go, all
else stays in the text. So what one part of a file leaves on its sheet is there when all parts are
written (`emitAll_leaves`).
-/

namespace TastyLang

namespace Printer

/-- At the start of a line nothing of the line is written. -/
def Fresh (p : Printer) : Prop := p.atLineStart = true → ∀ c ∈ p.output.head?, c = '\n'

/-- One printer goes on from another: what was written stays, but for blanks at its end. -/
structure Extends (p p' : Printer) : Prop where
  more : p.output.dropWhile (· = ' ') <:+ p'.output.dropWhile (· = ' ')
  fresh : p.Fresh → p'.Fresh

theorem Extends.refl (p : Printer) : p.Extends p := ⟨List.suffix_rfl, id⟩

theorem Extends.trans {p p' p'' : Printer} (h : p.Extends p') (h' : p'.Extends p'') :
    p.Extends p'' := ⟨h.more.trans h'.more, h'.fresh ∘ h.fresh⟩

theorem extends_newline (p : Printer) : p.Extends p.newline := by
  unfold newline
  refine ⟨?_, fun _ _ c first => (Option.mem_some.mp first).symm⟩
  split
  · next cs same =>
    rw [same]
    exact dropWhile_isSuffix ['\n'] cs
  · exact dropWhile_isSuffix ['\n'] p.output

theorem extends_newlines (p : Printer) (n : Nat) : p.Extends (p.newlines n) := by
  induction n generalizing p with
  | zero => exact .refl p
  | succ n ih => exact (extends_newline p).trans (ih p.newline)

theorem extends_freshLine (p : Printer) : p.Extends p.freshLine := by
  unfold freshLine
  split
  · exact .refl p
  · exact extends_newline p

theorem extends_align (p : Printer) (line : Int) : p.Extends (p.align line) := by
  unfold align
  split
  · exact extends_newlines p _
  · split
    · split
      · exact .refl p
      · next inside => exact ⟨List.suffix_rfl, fun _ start => absurd start inside⟩
    · exact extends_freshLine p

theorem extends_write (p : Printer) (s : String) : p.Extends (p.write s) := by
  obtain ⟨n, output⟩ := write_output p s
  refine ⟨by rw [output]; exact dropWhile_isSuffix _ _, fun fresh => ?_⟩
  unfold write Fresh
  split
  · exact fresh
  · intro start c first
    have last := eq_of_beq start
    rw [← List.head?_reverse] at last
    dsimp only at first
    rw [List.append_assoc, List.head?_append, last] at first
    exact (Option.mem_some.mp first).symm

theorem extends_ownLine (p : Printer) (s : String) : p.Extends (p.ownLine s) :=
  ((extends_freshLine p).trans (extends_write _ s)).trans (extends_newline _)

theorem extends_directive (p : Printer) (s : String) : p.Extends (p.directive s) := by
  refine ((extends_freshLine p).trans ?_).trans (extends_newline _)
  exact ⟨dropWhile_isSuffix _ _, fun _ start => by cases start⟩

/-- What stays of the output however it goes on: all but the blanks at its end. -/
def kept (p : Printer) : List Char := p.output.dropWhile isBlank

theorem Extends.kept {p p' : Printer} (h : p.Extends p') : p.kept <:+ p'.kept := by
  have blanks (cs : List Char) : (cs.dropWhile (· = ' ')).dropWhile isBlank = cs.dropWhile isBlank := by
    induction cs with
    | nil => rfl
    | cons c cs ih =>
      by_cases blank : c = ' '
      · subst blank
        exact ih
      · rw [List.dropWhile_cons_of_neg (p := (· = ' ')) (by simpa using blank)]
  obtain ⟨new, more⟩ := h.more
  unfold Printer.kept
  rw [← blanks p'.output, ← more, ← blanks p.output]
  exact dropWhile_isSuffix new _

theorem kept_write_solid (p : Printer) {s : String} (solid : Solid s) :
    (p.write s).kept = (p.write s).output := by
  obtain ⟨n, output⟩ := write_output p s
  obtain ⟨cs, c, same, ends⟩ := solid
  rw [kept, output, same, List.reverse_append]
  exact List.dropWhile_cons_of_neg (by rw [ends]; decide)

/-- The printer keeps a text. -/
def Has (p : Printer) (cs : List Char) : Prop := cs.reverse <:+: p.kept

theorem Has.mono {p p' : Printer} {cs : List Char} (h : p.Has cs) (more : p.kept <:+ p'.kept) :
    p'.Has cs := h.trans more.isInfix

theorem Has.text {p : Printer} {cs : List Char} (h : p.Has cs) : cs <:+: p.text.toList := by
  rw [Printer.text, String.toList_ofList, ← List.reverse_infix, List.reverse_reverse]
  refine (h.trans (List.IsSuffix.isInfix ?_)).trans (List.suffix_cons _ _).isInfix
  -- line ends are blanks, so `text` drops no more than `kept`
  unfold kept
  induction p.output with
  | nil => exact List.suffix_rfl
  | cons c cs ih =>
    by_cases ends : c = '\n'
    · subst ends
      exact ih
    · rw [List.dropWhile_cons_of_neg (p := (· = '\n')) (by simpa using ends)]
      exact List.dropWhile_suffix _

theorem has_write (p : Printer) {s : String} (solid : Solid s) : (p.write s).Has s.toList := by
  obtain ⟨n, output⟩ := write_output p s
  unfold Has
  rw [kept_write_solid p solid, output]
  exact ((List.prefix_append _ _).trans (List.prefix_append _ _)).isInfix

end Printer

namespace Emission

open Printer

/-! ### Adding to a text -/

section

variable {α β : Type} {e : Emitter α} {P : Printer → Prop}

/-- An emitter takes nothing back. -/
def Grows (e : Emitter α) : Prop := ∀ ⦃p a p'⦄, e p = .ok (a, p') → Printer.Extends p p'

/-- What holds of a printer after an emitter. -/
def Leaves (e : Emitter α) (P : Printer → Prop) : Prop := ∀ ⦃p a p'⦄, e p = .ok (a, p') → P p'

/-- What holds of a printer however its text goes on. -/
def Lasting (P : Printer → Prop) : Prop := ∀ ⦃p p'⦄, p.kept <:+ p'.kept → P p → P p'

namespace Grows

theorem pure {a : α} : Grows (pure a : Emitter α) := by
  rintro p _ _ ⟨⟩
  exact .refl p

theorem modify {f : Printer → Printer} (h : ∀ p : Printer, p.Extends (f p)) :
    Grows (modify f : Emitter Unit) := by
  rintro p _ _ ⟨⟩
  exact h p

theorem bind {f : α → Emitter β} (first : Grows e) (rest : ∀ a, Grows (f a)) :
    Grows (e >>= f) := by
  intro p b p' run
  obtain ⟨⟨a, q⟩, before, after⟩ := except_bind_ok run
  exact (first before).trans (rest a after)

theorem lift {x : Except EmitError α} : Grows (liftM x : Emitter α) := by
  intro p a p' run
  obtain ⟨b, -, run⟩ := except_bind_ok run
  cases run
  exact .refl p

theorem forM {f : β → Emitter PUnit} {xs : List β} (each : ∀ x, Grows (f x)) :
    Grows (xs.forM f) := by
  induction xs with
  | nil => exact pure
  | cons x xs ih => exact (each x).bind fun _ => ih

theorem ite {c : Prop} [Decidable c] {e' : Emitter α} (yes : Grows e) (no : Grows e') :
    Grows (if c then e else e') := by
  split
  · exact yes
  · exact no

end Grows

namespace Leaves

theorem bind {f : α → Emitter β} (rest : ∀ a, Leaves (f a) P) : Leaves (e >>= f) P := by
  intro p b p' run
  obtain ⟨⟨a, q⟩, -, after⟩ := except_bind_ok run
  exact rest a after

theorem before {f : α → Emitter β} (first : Leaves e P) (lasting : Lasting P)
    (rest : ∀ a, Grows (f a)) : Leaves (e >>= f) P := by
  intro p b p' run
  obtain ⟨⟨a, q⟩, before, after⟩ := except_bind_ok run
  exact lasting (rest a after).kept (first before)

theorem forM {f : β → Emitter PUnit} {xs : List β} {x : β} (member : x ∈ xs)
    (here : Leaves (f x) P) (lasting : Lasting P) (each : ∀ x, Grows (f x)) :
    Leaves (xs.forM f) P := by
  induction xs with
  | nil => cases member
  | cons y ys ih =>
    rcases List.mem_cons.mp member with rfl | member
    · exact here.before lasting fun _ => .forM each
    · exact bind fun _ => ih member

end Leaves

end

variable {info : Info}

/-! ### Emitters add to a text -/

theorem write_grows {s : String} : Grows (write s) := .modify (extends_write · s)

theorem align_grows {line : Int} : Grows (align line) :=
  .modify (extends_align · line)

theorem indent_grows : Grows (modify (·.indent)) := .modify fun _ => ⟨List.suffix_rfl, id⟩

theorem dedent_grows : Grows (modify (·.dedent)) := .modify fun _ => ⟨List.suffix_rfl, id⟩

theorem written_grows {x : Except EmitError String} {f : String → String} :
    Grows (do write (f (← x)) : Emitter Unit) := Grows.lift.bind fun _ => write_grows

theorem written_then_grows {x : Except EmitError String} {f : String → String} {rest : Emitter Unit}
    (later : Grows rest) : Grows (do write (f (← x)); rest : Emitter Unit) :=
  Grows.lift.bind fun _ => write_grows.bind fun _ => later

theorem injectFrom_grows (ls : List (List Char)) (line : Int) : Grows (injectFrom line ls) := by
  induction ls generalizing line with
  | nil => exact .pure
  | cons l ls ih =>
    refine Grows.bind ?_ fun _ => ih (line + 1)
    unfold injectLine
    split
    · exact .pure
    · exact align_grows.bind fun _ => .ite (.modify (extends_directive · _)) write_grows

mutual

theorem stmt_grows : (s : Stmt) → Grows (stmt info s)
  | .block b => block_grows b
  | .expr _ _ | .decl _ _ | .ret _ _ _ _ _ => written_grows
  | .branch _ _ _ yes none => written_then_grows ((block_grows yes).bind fun _ => .pure)
  | .branch _ _ _ yes (some no) =>
    written_then_grows ((block_grows yes).bind fun _ => write_grows.bind fun _ => stmt_grows no)
  | .loop _ _ _ body | .count _ _ _ _ _ _ body | .each _ _ _ _ body =>
    written_then_grows (block_grows body)
  | .brk _ _ | .cont _ _ => write_grows
  | .inject _ _ => injectFrom_grows _ _

theorem block_grows : (b : Block) → Grows (block info b)
  | .mk _ ss _ => by
    refine write_grows.bind fun _ => indent_grows.bind fun _ => (stmts_grows ss).bind fun _ =>
      align_grows.bind fun _ => Grows.bind (.forM fun o => ?_) fun _ => dedent_grows.bind fun _ =>
      write_grows
    exact write_grows.bind fun _ => align_grows

theorem stmts_grows : (ss : List Stmt) → Grows (stmts info ss)
  | [] => .pure
  | s :: ss => align_grows.bind fun _ => (stmt_grows s).bind fun _ => stmts_grows ss

end

theorem generatedText_grows {s : String} : Grows (generatedText s) := by
  unfold generatedText
  dsimp only
  exact .ite (.modify (extends_directive · _)) (.modify (extends_ownLine · _))

variable {d : DeclInfo}

theorem prepend_grows : Grows (prepend d) :=
  .ite .pure (align_grows.bind fun _ => .forM fun _ => generatedText_grows)

theorem append_grows : Grows (append d) := .forM fun _ => generatedText_grows

theorem declared_grows {text : Except EmitError String} : Grows (declared d text) :=
  prepend_grows.bind fun _ => align_grows.bind fun _ => written_then_grows append_grows

theorem definition_grows {line : Int} {head : Except EmitError String} {b : Block} :
    Grows (definition info line head b) :=
  align_grows.bind fun _ => written_then_grows (block_grows b)

theorem enum_grows {d : EnumDecl} : Grows (enum info d) := by
  have members : ∀ ms, Grows (enum.members info ms) := by
    intro ms
    induction ms with
    | nil => exact .pure
    | cons m ms ih =>
      have later : ∀ text, Grows (do write text; enum.members info ms) :=
        fun _ => write_grows.bind fun _ => ih
      refine align_grows.bind fun _ => ?_
      dsimp only
      split
      · exact Grows.lift.bind fun _ => later _
      · exact later _
  exact prepend_grows.bind fun _ => align_grows.bind fun _ => write_grows.bind fun _ =>
    indent_grows.bind fun _ => (members d.members).bind fun _ => dedent_grows.bind fun _ =>
    align_grows.bind fun _ => write_grows.bind fun _ => append_grows

theorem classMember_grows {owner : String} (i : Item) : Grows (classMember info owner i) := by
  cases i with
  | var | func => exact declared_grows
  | enum => exact enum_grows
  | inject => exact injectFrom_grows _ _

theorem memberDefinition_grows {owner : String} (i : Item) :
    Grows (memberDefinition info owner i) := by
  cases i with
  | var => exact .ite (align_grows.bind fun _ => written_grows) .pure
  | func f =>
    dsimp only [memberDefinition]
    split
    · exact definition_grows
    · exact .pure
  | enum | inject => exact .pure

/-! ### Parts -/

/-- The sheet of a kind. -/
def Sheets.at (s : Sheets) : Sheet → Printer
  | .header => s.header
  | .source => s.source

/-- Neither of the sheets takes anything back. -/
def Sheets.Grow (s s' : Sheets) : Prop := ∀ sheet, (s.at sheet).Extends (s'.at sheet)

theorem Sheets.Grow.trans {s s₁ s₂ : Sheets} (h : s.Grow s₁) (h' : s₁.Grow s₂) : s.Grow s₂ :=
  fun sheet => (h sheet).trans (h' sheet)

variable {s s' : Sheets} {u : Unit}

theorem on_ok {sheet : Sheet} {e : Emitter Unit} (h : on sheet e s = .ok (u, s')) :
    (∃ v, e (s.at sheet) = .ok (v, s'.at sheet)) ∧
      ∀ other ≠ sheet, s'.at other = s.at other := by
  obtain ⟨_, _, got, h⟩ := bind_ok h
  cases got
  cases sheet with
  | header =>
    obtain ⟨r, _, run, h⟩ := bind_ok h
    cases h
    obtain ⟨run, -⟩ := lift_ok run
    refine ⟨⟨r.1, run⟩, fun other differs => ?_⟩
    cases other with
    | header => exact absurd rfl differs
    | source => rfl
  | source =>
    obtain ⟨r, _, run, h⟩ := bind_ok h
    cases h
    obtain ⟨run, -⟩ := lift_ok run
    refine ⟨⟨r.1, run⟩, fun other differs => ?_⟩
    cases other with
    | header => rfl
    | source => exact absurd rfl differs

theorem on_grow {sheet : Sheet} {e : Emitter Unit} (grows : Grows e)
    (h : on sheet e s = .ok (u, s')) : s.Grow s' := by
  obtain ⟨⟨v, run⟩, others⟩ := on_ok h
  intro other
  by_cases same : other = sheet
  · subst same
    exact grows run
  · exact (others other same).symm ▸ .refl _

theorem emitAll_grow {ps : List Part} (grow : ∀ p ∈ ps, Grows p.text)
    (h : emitAll ps s = .ok (u, s')) : s.Grow s' := by
  induction ps generalizing s with
  | nil =>
    cases h
    exact fun _ => .refl _
  | cons p ps ih =>
    obtain ⟨⟨v, s₁⟩, first, rest⟩ := except_bind_ok h
    obtain ⟨own, others⟩ := List.forall_mem_cons.mp grow
    exact (on_grow own first).trans (ih others rest)

theorem emitAll_leaves {ps : List Part} (grow : ∀ p ∈ ps, Grows p.text) {p : Part} (member : p ∈ ps)
    {P : Printer → Prop} (leaves : Leaves p.text P) (lasting : Lasting P)
    (h : emitAll ps s = .ok (u, s')) : P (s'.at p.sheet) := by
  induction ps generalizing s with
  | nil => cases member
  | cons q ps ih =>
    obtain ⟨⟨v, s₁⟩, first, rest⟩ := except_bind_ok h
    obtain ⟨-, others⟩ := List.forall_mem_cons.mp grow
    rcases List.mem_cons.mp member with rfl | member
    · obtain ⟨⟨v, run⟩, -⟩ := on_ok first
      exact lasting (emitAll_grow others rest p.sheet).kept (leaves run)
    · exact ih others member rest

variable {c : Include.Context} {visible : Bool}

theorem funcParts_grow {f : FuncDecl} :
    ∀ p ∈ funcParts c info f visible, Grows p.text := by
  have around {head : Except EmitError String} {b : Block} : Grows (do
      prepend f.info
      definition info (lineOf f.info) head b
      append f.info) :=
    prepend_grows.bind fun _ => definition_grows.bind fun _ => append_grows
  unfold funcParts
  dsimp only
  split
  · exact List.forall_mem_singleton.mpr declared_grows
  · split
    · exact List.forall_mem_singleton.mpr around
    · split
      · exact List.forall_mem_cons.mpr
          ⟨declared_grows, List.forall_mem_singleton.mpr definition_grows⟩
      · exact List.forall_mem_singleton.mpr around

theorem globalParts_grow {d : VarDecl} :
    ∀ p ∈ globalParts c info d visible, Grows p.text := by
  unfold globalParts
  dsimp only
  split
  · split
    · exact List.forall_mem_singleton.mpr declared_grows
    · refine List.forall_mem_cons.mpr ⟨declared_grows, ?_⟩
      split
      · exact List.forall_mem_nil _
      · exact List.forall_mem_singleton.mpr (align_grows.bind fun _ => written_grows)
  · exact List.forall_mem_singleton.mpr declared_grows

theorem itemParts_grow {i : Item} :
    ∀ p ∈ itemParts c info visible i, Grows p.text := by
  cases i with
  | var d => exact globalParts_grow
  | func f => exact funcParts_grow
  | enum d => exact List.forall_mem_singleton.mpr enum_grows
  | inject di text => exact List.forall_mem_singleton.mpr (injectFrom_grows _ _)

theorem classParts_grow {name : String} {bases : List TypeExpr} {items : List Item}
    : ∀ p ∈ classParts c info d name bases items visible, Grows p.text := by
  refine List.forall_mem_cons.mpr ⟨?_, List.forall_mem_map.mpr fun i _ => memberDefinition_grows i⟩
  exact prepend_grows.bind fun _ => align_grows.bind fun _ => write_grows.bind fun _ =>
    indent_grows.bind fun _ => Grows.bind (.forM fun _ => generatedText_grows) fun _ =>
    append_grows.bind fun _ => dedent_grows.bind fun _ =>
    Grows.bind (.modify (extends_ownLine · _)) fun _ => indent_grows.bind fun _ =>
    Grows.bind (.forM classMember_grows) fun _ => dedent_grows.bind fun _ =>
    align_grows.bind fun _ => write_grows

theorem extensionParts_grow {f : FuncDecl} :
    ∀ p ∈ extensionParts c info visible f, Grows p.text := by
  unfold extensionParts
  split
  · exact List.forall_mem_nil _
  · refine List.forall_mem_append.mpr ⟨?_, ?_⟩
    · split
      · exact List.forall_mem_singleton.mpr (align_grows.bind fun _ => written_grows)
      · exact List.forall_mem_nil _
    · split
      · exact List.forall_mem_nil _
      · exact List.forall_mem_singleton.mpr definition_grows

mutual

theorem parts_grow : ∀ (visible : Bool) (d : Decl), ∀ p ∈ parts c info visible d, Grows p.text
  | visible, .item i => by
    rw [parts]
    exact itemParts_grow
  | visible, .scope di name ds => by
    have opens : Grows (openScope di name) :=
      align_grows.bind fun _ => write_grows.bind fun _ => indent_grows
    have closes : Grows (closeScope di) :=
      dedent_grows.bind fun _ => align_grows.bind fun _ => write_grows
    rw [parts]
    exact List.forall_mem_append.mpr ⟨List.forall_mem_append.mpr
      ⟨List.forall_mem_map.mpr fun _ _ => opens, partsOf_grow _ ds⟩,
      List.forall_mem_map.mpr fun _ _ => closes⟩
  | visible, .cls di name bases items => by
    rw [parts]
    exact classParts_grow
  | visible, .abstraction di _ _ fs | visible, .refurbish di _ fs => by
    rw [parts]
    exact List.forall_mem_flatMap.mpr fun _ _ => extensionParts_grow
  | visible, .includes _ _ _ _ | visible, .assume _ _ _ | visible, .attributeDef _ _ _ _ => by
    rw [parts]
    exact List.forall_mem_nil _

theorem partsOf_grow : ∀ (visible : Bool) (ds : List Decl),
    ∀ p ∈ partsOf c info visible ds, Grows p.text
  | visible, [] => by
    rw [partsOf]
    exact List.forall_mem_nil _
  | visible, d :: ds => by
    rw [partsOf]
    exact List.forall_mem_append.mpr ⟨parts_grow visible d, partsOf_grow visible ds⟩

end

end Emission

end TastyLang
