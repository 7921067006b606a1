import TastyLang.Proofs.Evaluation
import TastyLang.Proofs.Reading.Alike
import TastyLang.Proofs.Reading.Faults
import TastyLang.Proofs.Reading.TypeText

/-!
# Where types end

What may stand right behind the type of a variable. An equals sign there is cut together with the last
token of the type where the two make a longer operator (`munch_concat`): a closing bracket is read off
that again, and everything read is the same from there on (`fused_kin`); from `*=` and `>>=` nothing is
read off, and no reader of types goes past them (`before_kin`). So a space in front of the equals sign
is needed there, and only there.
-/

namespace TastyLang

open Token (Form Scans Tail)

namespace Token

/-! ### Tokens at other places -/

/-- The same reading of a gap, of a block comment that starts at another place. -/
def GapMode.moved (start : Pos) : GapMode → GapMode
  | .block _ => .block start
  | mode => mode

theorem gap_moved (mode : GapMode) (pos pos' start : Pos) (cs : List Char) :
    (gap (mode.moved start) pos' cs).toOption.map Prod.snd =
      (gap mode pos cs).toOption.map Prod.snd := by
  fun_induction gap mode pos cs generalizing pos' start with
  | case1 => rfl
  | case2 pos cs ih => exact ih _ start
  | case3 pos cs ih => exact ih _ pos'
  | case4 pos c cs line block blank ih =>
    show (gap .blank pos' (c :: cs)).toOption.map _ = _
    rw [gap, if_pos blank]
    · exact ih _ start
    · exact line
    · exact block
  | case5 pos c cs line block other =>
    show (gap .blank pos' (c :: cs)).toOption.map _ = _
    rw [gap, if_neg other]
    · rfl
    · exact line
    · exact block
  | case6 => rfl
  | case7 pos cs ih => exact ih _ start
  | case8 pos c cs other ih =>
    rw [GapMode.moved, gap, if_neg other]
    · exact ih _ start
    · rintro _ ⟨⟩
  | case9 => rfl
  | case10 start' pos cs ih => exact ih _ start
  | case11 start' pos c cs open_ ih =>
    rw [GapMode.moved, gap]
    · exact ih _ start
    · exact open_

theorem not_ends {ts : List Token} {e : ScanError} : ¬ Stream.Ends ⟨ts, .error e⟩ :=
  fun ⟨_, ends⟩ => nomatch ends

/-- The forms of tokens and whether the text ends well do not depend on the place, and on the token
before only as far as the next one does. -/
theorem scanFrom_moved {prev prev' : Kind} (same : ∀ c cs, lexeme prev c cs = lexeme prev' c cs)
    (pos pos' : Pos) (cs : List Char) :
    (scanFrom prev pos cs).tokens.map form = (scanFrom prev' pos' cs).tokens.map form ∧
      ((scanFrom prev pos cs).Ends ↔ (scanFrom prev' pos' cs).Ends) := by
  have gaps (pos pos' : Pos) (cs : List Char) : (gap .blank pos' cs).toOption.map Prod.snd =
      (gap .blank pos cs).toOption.map Prod.snd := gap_moved .blank pos pos' pos cs
  fun_induction scanFrom prev pos cs generalizing prev' pos' with
  | case1 prev pos cs e failed =>
    have none := gaps pos pos' cs
    rw [failed] at none
    cases found : gap .blank pos' cs with
    | ok r =>
      rw [found] at none
      cases none
    | error e' =>
      rw [scanFrom_eq, found]
      exact ⟨rfl, iff_of_false not_ends not_ends⟩
  | case2 prev pos cs start found =>
    obtain ⟨⟨start', rest⟩, found', same'⟩ := Option.map_eq_some_iff.mp
      ((gaps pos pos' cs).trans (by rw [found]; rfl))
    cases same'
    rw [scanFrom_eq prev', toOption_eq_some found']
    exact ⟨rfl, fun _ => ⟨_, rfl⟩, fun _ => ⟨_, rfl⟩⟩
  | case3 prev pos cs start c rest found cause bad =>
    obtain ⟨⟨start', rest'⟩, found', same'⟩ := Option.map_eq_some_iff.mp
      ((gaps pos pos' cs).trans (by rw [found]; rfl))
    cases same'
    rw [scanFrom_eq prev', toOption_eq_some found', afterGap, ← same, bad]
    exact ⟨rfl, iff_of_false not_ends not_ends⟩
  | case4 prev pos cs start c rest found l good =>
    rename_i text literal ih
    obtain ⟨⟨start', rest'⟩, found', same'⟩ := Option.map_eq_some_iff.mp
      ((gaps pos pos' cs).trans (by rw [found]; rfl))
    cases same'
    rw [scanFrom_eq prev', toOption_eq_some found', afterGap, ← same, good]
    obtain ⟨tokens, ends⟩ := ih (fun _ _ => rfl) (start'.afterAll text)
    refine ⟨?_, ends⟩
    simp only [Stream.cons, List.map_cons, tokens]
    rfl

theorem lexeme_operator_prev {o o' : Operator}
    (opens : (Kind.op o).Opens) (opens' : (Kind.op o').Opens) (c : Char) (cs : List Char) :
    lexeme (.op o) c cs = lexeme (.op o') c cs := by
  have dot {o : Operator} (opens : (Kind.op o).Opens) : (Kind.op o == .op .dot) = false :=
    beq_eq_false_iff_ne.mpr opens.2
  simp only [lexeme, numberLexeme, opens.1, opens'.1, dot opens, dot opens']
  rfl

def assigns : List Operator := [.assign, .greaterEqual, .shiftRightAssign, .starAssign]

theorem opens_of_assigns {o : Operator} (assign : o ∈ assigns) : (Kind.op o).Opens := by
  simp only [assigns, List.mem_cons, List.not_mem_nil, or_false] at assign
  rcases assign with rfl | rfl | rfl | rfl <;> exact ⟨rfl, by rintro ⟨⟩⟩

theorem goesOn_assigns {o : Operator} (assign : o ∈ assigns) {d : Char} (other : d ≠ '=') :
    o.goesOn d = false := by
  refine List.any_eq_false.mpr fun longer _ => ?_
  simp only [assigns, List.mem_cons, List.not_mem_nil, or_false] at assign
  rcases assign with rfl | rfl | rfl | rfl <;> cases longer <;>
    simp [Operator.symbol, List.isPrefixOf, other]

section

variable {cs : List Char} {o : Operator}

/-- The tokens of a text behind an assignment. -/
def assigned (cs : List Char) : Stream := scanFrom (.op .assign) .first cs

theorem scans_assigned (assign : o ∈ assigns) : Scans (assigned cs) (· = .op o) cs [] := by
  rintro _ pos rfl
  exact scanFrom_moved (lexeme_operator_prev (opens_of_assigns assign)
    (opens_of_assigns (List.mem_cons_self ..))) pos .first cs

theorem Tail.spaced : Tail (Stream.cons ⟨.op .assign, "=", .first⟩ (assigned cs))
    (' ' :: '=' :: ' ' :: cs) [] := by
  have mark : Scans (assigned cs) Kind.Any ('=' :: ' ' :: cs) [.op .assign] := by
    refine scans_mark rfl (by decide) ?_ nofun (scans_space (scans_assigned (by decide)))
    rintro d ⟨⟩
    exact goesOn_assigns (by decide) (by decide)
  refine .of (scans_space fun prev pos any => ?_) ?_ ?_ nofun
  · exact mark prev pos any
  · rintro d ⟨⟩
    decide
  · rintro d ⟨⟩
    decide

theorem Tail.glued (other : ∀ d ∈ cs.head?, d ≠ '=') :
    Tail (assigned cs) ('=' :: cs) [.op .assign] := by
  have longest {o : Operator} (assign : o ∈ assigns) : ∀ d ∈ cs.head?, o.goesOn d = false :=
    fun d head => goesOn_assigns assign (other d head)
  refine ⟨?_, ?_, ?_, ?_, ?_⟩
  · exact scans_mark rfl (by decide) (longest (by decide)) nofun (scans_assigned (by decide))
  · exact @scans_symbol (assigned cs) Kind.Any '>' ['='] cs [] _ .greaterEqual rfl (by decide)
      (by decide) (fun minus => absurd minus (by decide)) (longest (by decide)) rfl
      (scans_assigned (by decide))
  · exact @scans_symbol (assigned cs) Kind.Any '>' ['>', '='] cs [] _ .shiftRightAssign rfl
      (by decide) (by decide) (fun minus => absurd minus (by decide)) (longest (by decide)) rfl
      (scans_assigned (by decide))
  · exact @scans_symbol (assigned cs) Kind.Any '*' ['='] cs [] _ .starAssign rfl (by decide)
      (by decide) (fun minus => absurd minus (by decide)) (longest (by decide)) rfl
      (scans_assigned (by decide))
  · rintro d ⟨⟩
    decide

end

/-! ### The last token of a type -/

/-- What two forms without a space in between are cut into. -/
def Form.with (f g : Form) : List Form :=
  match f.join? g with
  | some both => [both]
  | none => [f, g]

theorem munch_concat (f : Form) (fs : List Form) (g : Form) :
    ∃ front last, munch (f :: fs) = front ++ [last] ∧
      munch (f :: fs ++ [g]) = front ++ last.with g := by
  induction fs generalizing f with
  | nil =>
    refine ⟨[], f, rfl, ?_⟩
    show munchFrom f [g] = _
    rw [munchFrom, List.nil_append, Form.with]
    cases f.join? g <;> rfl
  | cons h fs ih =>
    show ∃ front last, munchFrom f (h :: fs) = _ ∧ munchFrom f (h :: (fs ++ [g])) = _
    rw [munchFrom, munchFrom]
    cases joined : f.join? h with
    | some both => exact ih both
    | none =>
      obtain ⟨front, last, whole, more⟩ := ih h
      refine ⟨f :: front, last, ?_, ?_⟩
      · exact congrArg (f :: ·) whole
      · exact congrArg (f :: ·) more

/-- What the tokens are that types are cut into. -/
def Form.OfType (f : Form) : Prop :=
  f.kind ∈ Kind.ofTypes ∨ f.kind = .op .greater ∨ f.kind = .op .shiftRight

theorem Form.OfType.kind {f : Form} (h : f.OfType) {k : Kind} (other : k ∉ Kind.ofTypes)
    (other' : k ∉ [.op .greater, .op .shiftRight]) : f.kind ≠ k := by
  rintro rfl
  rcases h with inside | mark
  · exact other inside
  · exact other' (by simpa using mark)

theorem munch_ofType {fs : List Form} (marks : ∀ f ∈ fs, f.OfType) : ∀ f ∈ munch fs, f.OfType := by
  have join {f g h : Form} (left : f.OfType) (right : g.OfType) (joined : f.join? g = some h) :
      h.OfType := by
    by_cases brackets : f.kind = .op .greater ∧ g.kind = .op .greater
    · rw [Form.join?, brackets.1, brackets.2] at joined
      cases joined
      exact .inr (.inr rfl)
    · rw [join?_other (right.kind (by decide) (by decide)) (Classical.not_and_iff_not_or_not.mp brackets)] at joined
      cases joined
  have munched (f : Form) (here : f.OfType) (fs : List Form) (marks : ∀ f ∈ fs, f.OfType) :
      ∀ g ∈ munchFrom f fs, g.OfType := by
    induction fs generalizing f with
    | nil => exact List.forall_mem_singleton.mpr here
    | cons g fs ih =>
      obtain ⟨next, rest⟩ := List.forall_mem_cons.mp marks
      rw [munchFrom]
      split
      · next h joined => exact ih h (join here next joined) rest
      · exact List.forall_mem_cons.mpr ⟨here, ih g next rest⟩
  cases fs with
  | nil => exact List.forall_mem_nil _
  | cons f fs =>
    obtain ⟨here, rest⟩ := List.forall_mem_cons.mp marks
    exact munched f here fs rest

end Token

namespace Reader

variable {c d : Cursor} {f h : Form} {fs V F : List Form} {table : Table} {n m : Nat}

open Cursor (Same)

/-! ### Where readers of types stop -/

/-- What a closing bracket leaves of the token that it is read off. -/
def left? (f : Form) : Option (List Form) :=
  match f.kind with
  | .op .greater => some []
  | .op .shiftRight => some [.greater]
  | .op .greaterEqual => some [.op .assign]
  | _ => none

theorem closeTemplate_gives {rest : List Form} (left : left? f = some rest) :
    Gives closeTemplate (f :: fs) (fun _ => True) (rest ++ fs) := by
  have split (t u : Token) : Gives (closeTemplate.splitOff t u) (f :: fs) (fun _ => True)
      (u.form :: fs) := by
    intro c holds
    refine ⟨(), _, rfl, ⟨?_, holds.stop⟩, trivial⟩
    have tail := congrArg List.tail holds.rest
    rw [← List.map_tail] at tail
    exact congrArg (u.form :: ·) tail
  refine gives_current fun p => ?_
  obtain ⟨kind, literal⟩ := f
  unfold left? at left
  dsimp only [Form.first_cons] at left ⊢
  split at left <;> cases left
  · exact advance_gives
  · exact split _ _
  · exact split _ _

theorem closeTemplate_left {c' : Cursor} {u : Unit} (holds : c.Holds (f :: fs))
    (h : closeTemplate c = .ok (u, c')) : ∃ rest, left? f = some rest := by
  obtain ⟨t, _, here, h⟩ := bind_ok h
  obtain ⟨rfl, rfl⟩ := current_ok here
  have same : c.current.kind = f.kind := congrArg Form.kind holds.current
  rw [same] at h
  unfold left?
  generalize f.kind = kind at h
  split at h
  · exact ⟨_, rfl⟩
  · exact ⟨_, rfl⟩
  · exact ⟨_, rfl⟩
  · exact absurd h unexpected_ok

theorem left_ofType (mark : f.OfType) {rest : List Form} (left : left? f = some rest) :
    ∀ g ∈ rest, g.OfType := by
  unfold left? at left
  split at left <;> cases left
  · exact fun _ member => nomatch member
  · exact List.forall_mem_singleton.mpr (.inr (.inl rfl))
  · next kind => exact absurd kind (mark.kind (by decide) (by decide))

theorem advance_holds {c' : Cursor} {u : Unit} (holds : c.Holds (f :: fs))
    (h : advance c = .ok (u, c')) : c'.Holds fs := by
  obtain ⟨_, c₁, run, holds', -⟩ := advance_gives c holds
  cases h.symm.trans run
  exact holds'

theorem close_holds {c' : Cursor} {u : Unit} (holds : c.Holds (f :: fs))
    (h : closeTemplate c = .ok (u, c')) : ∃ rest, left? f = some rest ∧ c'.Holds (rest ++ fs) := by
  obtain ⟨rest, left⟩ := closeTemplate_left holds h
  obtain ⟨_, c₁, run, holds', -⟩ := closeTemplate_gives left c holds
  cases h.symm.trans run
  exact ⟨rest, left, holds'⟩

/-- In front of what types are cut into, behind which `h` stands in front of `F`. -/
def Before (h : Form) (F : List Form) (c : Cursor) : Prop :=
  ∃ V : List Form, (∀ f ∈ V, f.OfType) ∧ c.Holds (V ++ h :: F)

/-- A token that no reader of types takes. -/
structure Foreign (h : Form) : Prop where
  type : h.kind ∉ Token.Kind.ofTypes
  closing : h.kind ∉ Token.Kind.closing

theorem before_kin (foreign : Foreign h) : Kin fun c d => c = d ∧ Before h F c where
  alike := by
    rintro c d ⟨rfl, -⟩
    exact .inl rfl
  next := by
    rintro c d ⟨rfl, -⟩ -
    rfl
  advance := by
    rintro t kind c d c' _ ⟨⟨rfl, V, marks, holds⟩, rfl⟩ run
    refine .inr ⟨(), c', run, ⟨rfl, ?_⟩, rfl⟩
    cases V with
    | nil =>
      have here : c.current.kind = h.kind := congrArg Form.kind holds.current
      exact absurd (here ▸ kind) foreign.type
    | cons f V => exact ⟨V, fun g member => marks g (.tail _ member), advance_holds holds run⟩
  close := by
    rintro c d c' _ ⟨rfl, V, marks, holds⟩ run
    refine .inr ⟨(), c', run, ⟨rfl, ?_⟩, rfl⟩
    cases V with
    | nil =>
      obtain ⟨rest, left, -⟩ := close_holds holds run
      refine absurd ?_ foreign.closing
      unfold left? at left
      split at left
      · next kind => rw [kind]; decide
      · next kind => rw [kind]; decide
      · next kind => rw [kind]; decide
      · cases left
    | cons f V =>
      obtain ⟨rest, left, holds'⟩ := close_holds holds run
      obtain ⟨mark, marks⟩ := List.forall_mem_cons.mp marks
      refine ⟨rest ++ V, List.forall_mem_append.mpr ⟨left_ofType mark left, marks⟩, ?_⟩
      rw [List.append_assoc]
      exact holds'

/-- The cursors stand in front of the same forms, or a bracket further on is cut together with the
equals sign behind it in front of the second one only. -/
def Fused (l : Form) (F : List Form) (c d : Cursor) : Prop :=
  (∃ V : List Form, (∀ f ∈ V, f.OfType) ∧ c.Holds (V ++ l :: .op .assign :: F) ∧
    d.Holds (V ++ .op .greaterEqual :: F)) ∨ Same c d

theorem fused_kin {l : Form} (bracket : l.kind = .op .greater) : Kin (Fused l F) where
  alike := by
    rintro c d (⟨V, -, left, right⟩ | same)
    · have left := left.current
      have right := right.current
      cases V with
      | nil =>
        have kind : c.current.kind = l.kind := congrArg Form.kind left
        have kind' : d.current.kind = .op .greaterEqual := congrArg Form.kind right
        exact .inr ⟨by rw [kind, bracket]; decide, by rw [kind']; decide⟩
      | cons f V => exact .inl (left.trans right.symm)
    · exact same_kin.alike same
  next := by
    rintro c d (⟨V, -, left, right⟩ | same) dot
    · rw [left.nextKind, right.nextKind]
      match V with
      | [] =>
        have kind : c.current.kind = l.kind := congrArg Form.kind left.current
        rw [kind, bracket] at dot
        cases dot
      | [f] =>
        show (l.kind == _) = _
        rw [bracket]
        rfl
      | f :: g :: V => rfl
    · exact same_kin.next same dot
  advance := by
    rintro t kind c d c' _ ⟨⟨V, marks, left, right⟩ | same, rfl⟩ run
    · cases V with
      | nil =>
        have here : c.current.kind = l.kind := congrArg Form.kind left.current
        rw [here, bracket] at kind
        exact absurd kind (by decide)
      | cons f V =>
        obtain ⟨_, d', run', right', -⟩ := advance_gives d right
        exact .inr ⟨(), d', run', .inl ⟨V, fun g member => marks g (.tail _ member),
          advance_holds left run, right'⟩, rfl⟩
    · refine (same_kin.advance kind ⟨same, rfl⟩ run).imp_right ?_
      rintro ⟨_, d', run', same, key⟩
      exact ⟨_, d', run', .inr same, key⟩
  close := by
    rintro c d c' _ (⟨V, marks, left, right⟩ | same) run
    · cases V with
      | nil =>
        obtain ⟨rest, found, holds⟩ := close_holds left run
        obtain rfl : rest = [] := by
          rw [left?, bracket] at found
          exact (Option.some.inj found).symm
        obtain ⟨_, d', run', right', -⟩ := @closeTemplate_gives (.op .greaterEqual) F _ rfl d right
        exact .inr ⟨(), d', run', .inr ⟨_, holds, right'⟩, rfl⟩
      | cons f V =>
        obtain ⟨rest, found, holds⟩ := close_holds left run
        obtain ⟨mark, marks⟩ := List.forall_mem_cons.mp marks
        obtain ⟨_, d', run', right', -⟩ := closeTemplate_gives found d right
        refine .inr ⟨(), d', run', .inl ⟨rest ++ V, ?_, ?_, ?_⟩, rfl⟩
        · exact List.forall_mem_append.mpr ⟨left_ofType mark found, marks⟩
        · rw [List.append_assoc]
          exact holds
        · rw [List.append_assoc]
          exact right'
    · refine (same_kin.close same run).imp_right ?_
      rintro ⟨_, d', run', same, key⟩
      exact ⟨_, d', run', .inr same, key⟩

/-! ### What stands in front of the type -/

section

variable {α β ι : Type} {r : Reader α} {k k' : List Form} {g : ι → Reader α}

/-- In front of the forms `fs`, `r` goes on as one of the readers `g` in front of the forms `k`. -/
def GoesOn (r : Reader α) (fs : List Form) (g : ι → Reader α) (k : List Form) : Prop :=
  ∀ c, c.Holds fs → ∃ i c', c'.Holds k ∧ r c = g i c'

theorem GoesOn.reindex {κ : Type} {h : κ → Reader α} (φ : κ → ι) (same : ∀ j, h j = g (φ j))
    (goesOn : GoesOn r fs h k) : GoesOn r fs g k := by
  intro c holds
  obtain ⟨j, c', holds', run⟩ := goesOn c holds
  exact ⟨φ j, c', holds', same j ▸ run⟩

theorem GoesOn.andThen {f : α → Reader β} (h : GoesOn r fs g k) :
    GoesOn (r >>= f) fs (fun i => g i >>= f) k := by
  intro c holds
  obtain ⟨i, c', holds', same⟩ := h c holds
  refine ⟨i, c', holds', ?_⟩
  show (r c >>= fun p => f p.1 p.2) = g i c' >>= fun p => f p.1 p.2
  rw [same]

theorem Gives.goesOn {r : Reader β} {f : β → Reader α} {b : β} (first : Gives r fs (· = b) k)
    (next : GoesOn (f b) k g k') : GoesOn (r >>= f) fs g k' := by
  intro c holds
  obtain ⟨_, c₁, run, holds₁, rfl⟩ := first c holds
  obtain ⟨i, c', holds', same⟩ := next c₁ holds₁
  refine ⟨i, c', holds', ?_⟩
  rw [← same]
  show (r c >>= fun p => f p.1 p.2) = _
  rw [run]
  rfl

theorem goesOn_pos {f : Pos → Reader α} (next : ∀ p, GoesOn (f p) fs g k) :
    GoesOn (pos >>= f) fs g k := fun c holds => next c.current.pos c holds

theorem goesOn_current {f : Token → Reader α}
    (next : ∀ p, GoesOn (f ⟨(Form.first fs).kind, (Form.first fs).literal, p⟩) fs g k) :
    GoesOn (current >>= f) fs g k := by
  intro c holds
  have step := next c.current.pos c holds
  rwa [← holds.current] at step

end

/-- What is read of a variable behind its type. -/
def afterType (table : Table) (n : Nat) (start : Pos) (t : TypeExpr) : Reader VarDecl := do
  let v ← after? (acceptOp .assign) (expression table n)
  discard (expectOp .semicolon)
  return { info := { span := ← spanFrom start, attrs := [], modifiers := {} }
           name := "x", storage := ⟨.value, "copy"⟩, type := some t, value := v }

/-- What is read of a variable from its type on. -/
def fromType (table : Table) (n : Nat) (start : Pos) : Reader VarDecl :=
  Reader.type n >>= afterType table n start

/-- What is read of a file that starts with a variable, from the type of that on. -/
def fileFrom (table : Table) (path : String) (src : List Char) (n : Nat) (p : Pos × Pos) :
    Reader File := do
  let d ← fromType table n p.2
  let ds ← decls ⟨table, src, n⟩ (n - 1)
  return ⟨⟨p.1, ← pos⟩, path, .item (.var d) :: ds⟩

def opening : List Form := [⟨.storage .copy, "copy"⟩, ⟨.ident, "x"⟩, .op .colon]

theorem varDecl_goesOn (start : Pos) : GoesOn (varDecl table n start {} []) (opening ++ fs)
    (fun _ : Unit => fromType table n start) fs := by
  have word : Gives storage (opening ++ fs) (· = ⟨.value, "copy"⟩) (opening ++ fs).tail :=
    gives_current fun p => gives_advance (.pure rfl)
  refine word.goesOn ((name_gives rfl).goesOn ?_)
  have colon {f : Option TypeExpr → Reader VarDecl} : GoesOn
      (after? (acceptOp .colon) (Reader.type n) >>= f) (.op .colon :: fs)
      (fun _ : Unit => Reader.type n >>= fun t => f (some t)) fs := by
    unfold after?
    rw [bind_assoc]
    have accepts : Gives (acceptOp .colon) (.op .colon :: fs) (· = true) fs := by
      rw [← bind_pure (acceptOp .colon)]
      exact gives_accept rfl (.pure rfl)
    refine accepts.goesOn ?_
    rw [if_pos rfl, map_eq_pure_bind, bind_assoc]
    simp only [pure_bind]
    exact fun c holds => ⟨(), c, holds, rfl⟩
  exact colon

theorem decl_goesOn (some : 0 < n) {src : List Char} {f : Decl → Reader File} :
    GoesOn (decl ⟨table, src, n⟩ n >>= f) (opening ++ fs)
      (fun p => fromType table n p >>= fun d => f (.item (.var d))) fs := by
  obtain ⟨n, rfl⟩ : ∃ n', n = n' + 1 := ⟨n - 1, by omega⟩
  have bare : Gives (attributeUses ⟨table, src, n + 1⟩) (opening ++ fs) (· = []) (opening ++ fs) := by
    unfold attributeUses many manyWith attributeUse? checkOp
    simp only [bind_assoc]
    refine gives_check ?_
    rw [show ((Form.first (opening ++ fs)).kind == .op .atSign) = false from rfl,
      if_neg Bool.false_ne_true, pure_bind]
    exact .pure rfl
  have plain : Gives (modifiers (n + 1)) (opening ++ fs) (· = {}) (opening ++ fs) := by
    unfold modifiers iterate iterateWith modifier
    simp only [bind_assoc]
    exact gives_current fun p => .pure rfl
  rw [decl, declWith, bind_assoc]
  refine bare.goesOn ?_
  rw [bind_assoc]
  refine goesOn_pos fun start => ?_
  rw [bind_assoc]
  refine plain.goesOn ?_
  rw [bind_assoc]
  refine goesOn_current fun p => ?_
  show GoesOn (((Decl.item ∘ Item.var) <$> varDecl table (n + 1) start {} []) >>= f) _ _ _
  rw [map_eq_pure_bind, bind_assoc]
  simp only [pure_bind]
  exact (varDecl_goesOn start).andThen.reindex (fun _ => start) fun _ => rfl

/-- What is read of a text that starts with a variable of a type. -/
theorem read_goesOn {path src : String}
    (tokens : (Token.stream src).tokens.map Token.form = opening ++ fs)
    (ends : (Token.stream src).Ends) : ∃ n p c, 1 < n ∧ c.Holds fs ∧
      File.read table path src = Prod.fst <$> fileFrom table path src.toList n p c := by
  obtain ⟨n, c, steps, holds, same⟩ := run_eq (fun n => do
    let start ← Reader.pos
    let ds ← Reader.decls ⟨table, src.toList, n⟩ n
    return (⟨⟨start, ← Reader.pos⟩, path, ds⟩ : File)) ends
  obtain ⟨n, rfl⟩ : ∃ n', n = n' + 1 := ⟨n - 1, by omega⟩
  have goesOn : GoesOn (do
      let start ← Reader.pos
      let ds ← Reader.decls ⟨table, src.toList, n + 1⟩ (n + 1)
      return (⟨⟨start, ← Reader.pos⟩, path, ds⟩ : File)) (opening ++ fs)
      (fileFrom table path src.toList (n + 1)) fs := by
    refine goesOn_pos fun start => ?_
    rw [decls, declsWith, bind_assoc]
    have more : Gives (check .eof) (opening ++ fs) (· = false) (opening ++ fs) := by
      rw [← bind_pure (check _)]
      exact gives_check (.pure rfl)
    refine more.goesOn ?_
    rw [if_neg Bool.false_ne_true, bind_assoc]
    simp only [bind_assoc, pure_bind]
    exact (decl_goesOn (Nat.succ_pos n)).reindex (fun p => (start, p)) fun _ => rfl
  rw [tokens] at holds
  obtain ⟨p, c', holds', run⟩ := goesOn c holds
  refine ⟨n + 1, p, c', ?_, holds', ?_⟩
  · rw [← List.length_map Token.form, tokens, List.length_append] at steps
    exact Nat.lt_of_le_of_lt (Nat.succ_le_succ (Nat.zero_le _)) steps
  · rw [← run]
    exact same

/-! ### What stands behind the type -/

theorem afterType_ok {start : Pos} {t : TypeExpr} {x : VarDecl × Cursor}
    (h : afterType table n start t c = .ok x) :
    c.current.kind = .op .assign ∨ c.current.kind = .op .semicolon := by
  obtain ⟨v, c₁, value, h⟩ := bind_ok h
  obtain ⟨b, c₀, accepted, value⟩ := bind_ok value
  obtain ⟨b', _, seen, accepted⟩ := bind_ok accepted
  obtain ⟨rfl, rfl⟩ := check_ok seen
  split at accepted
  · next assign => exact .inl (eq_of_beq assign)
  · obtain ⟨rfl, rfl⟩ := pure_ok accepted
    obtain ⟨rfl, rfl⟩ := pure_ok value
    obtain ⟨_, _, ends, -⟩ := bind_ok h
    obtain ⟨_, ends⟩ := discard_ok ends
    obtain ⟨u, _, here, ends⟩ := bind_ok ends
    obtain ⟨rfl, rfl⟩ := current_ok here
    split at ends
    · next semicolon => exact .inr (eq_of_beq semicolon)
    · exact absurd ends unexpected_ok

theorem afterType_never {start : Pos} {t : TypeExpr} (mark : c.current.form.OfType)
    {x : VarDecl × Cursor} : afterType table n start t c ≠ .ok x := by
  intro h
  rcases afterType_ok h with ends | ends
  · exact mark.kind (by decide) (by decide) ends
  · exact mark.kind (by decide) (by decide) ends

theorem fromType_before (foreign : Foreign h) (before : Before h F c) {p : Pos}
    {x : VarDecl × Cursor} (run : fromType table n p c = .ok x) :
    ∃ t c', c'.Holds (h :: F) ∧ afterType table n p t c' = .ok x := by
  obtain ⟨t, c₁, type, rest⟩ := bind_ok run
  rcases type_agrees (before_kin foreign) n n ⟨rfl, before⟩ type with spent | ⟨_, d₁, -, kept, -⟩
  · rw [type] at spent
    cases spent
  · obtain ⟨-, V, marks, holds⟩ := kept
    cases V with
    | nil => exact ⟨t, c₁, holds, rest⟩
    | cons f V =>
      have here : c₁.current.form = f := holds.current
      exact absurd rest (afterType_never (here ▸ (List.forall_mem_cons.mp marks).1))

theorem expression_ok {x : Expr × Cursor} (h : expression table n c = .ok x) :
    c.current.kind ≠ .op .assign ∧ c.current.kind ≠ .op .equal := by
  have unread {n m : Nat} {expr : Reader Expr} {o : Operator} (assign : o = .assign ∨ o = .equal)
      (here : c.current.kind = .op o) {y : Expr × Cursor} : operand n expr m c ≠ .ok y := by
    intro h
    cases m with
    | zero => exact exhausted_ok h
    | succ m =>
      obtain ⟨t, _, now, h⟩ := bind_ok h
      obtain ⟨rfl, rfl⟩ := current_ok now
      have primary : ∀ z, primary n expr c ≠ .ok z := by
        intro z h
        obtain ⟨t, _, now, h⟩ := bind_ok h
        obtain ⟨rfl, rfl⟩ := current_ok now
        rw [here] at h
        rcases assign with rfl | rfl <;> exact unexpected_ok h
      rw [here] at h
      rcases assign with rfl | rfl
      · obtain ⟨_, _, first, -⟩ := bind_ok h
        exact primary _ first
      · obtain ⟨_, _, first, -⟩ := bind_ok h
        exact primary _ first
  cases n with
  | zero => exact absurd h exhausted_ok
  | succ n =>
    obtain ⟨_, _, now, h⟩ := bind_ok h
    obtain ⟨-, rfl⟩ := pos_ok now
    obtain ⟨_, _, first, -⟩ := bind_ok h
    exact ⟨fun here => unread (.inl rfl) here first, fun here => unread (.inr rfl) here first⟩

end Reader

/-- The variable without its spans. -/
def VarDecl.bare (d : VarDecl) : VarDecl :=
  { d with
    info := { d.info with span := {}, attrs := d.info.attrs.map fun u => { u with span := {} } }
    type := d.type.map TypeExpr.bare
    value := d.value.map Expr.bare }

namespace Reader

variable {c d : Cursor} {F : List Form} {l : Form} {table : Table} {n m : Nat} {p q : Pos}

open Cursor (Same)

theorem afterType_matches {t u : TypeExpr} (same : t.bare = u.bare) :
    Matches VarDecl.bare (afterType table n p t) (afterType table m q u) := by
  have value : Matches (Option.map Expr.bare) (after? (acceptOp .assign) (expression table n))
      (after? (acceptOp .assign) (expression table m)) := by
    refine accept_matches.bind fun b b' found => ?_
    obtain rfl : b = b' := found
    cases b with
    | true => exact (expressionFrom_matches table n m 1).map fun x y same => congrArg some same
    | false => exact .pure rfl
  refine value.bind fun v w values => expect_matches.discard.bind fun _ _ _ => ?_
  refine agrees_finish fun s s' => ?_
  simp only [VarDecl.bare, Option.map_some, same, values]

theorem fromType_agrees (bracket : l.kind = .op .greater) :
    Agrees Same (Fused l F) VarDecl.bare (fromType table n p) (fromType table m q) := by
  refine (type_agrees (fused_kin bracket) n m).bind fun t u same => ?_
  rintro c d c' v (⟨V, marks, holds, -⟩ | alike) run
  · have mark : c.current.form.OfType := by
      rw [holds.current]
      cases V with
      | nil => exact .inr (.inl bracket)
      | cons f V => exact (List.forall_mem_cons.mp marks).1
    exact absurd run (afterType_never mark)
  · exact afterType_matches same alike run

/-- Reading a file whose only declaration is a variable, in front of related cursors. -/
theorem fileFrom_agrees (bracket : l.kind = .op .greater) {path : String} {src src' : List Char}
    (steps : 1 < m) {file : File} {v : VarDecl} (one : file.decls = [.item (.var v)])
    {starts starts' : Pos × Pos} {c' : Cursor} (related : Fused l F c d)
    (run : fileFrom table path src n starts c = .ok (file, c')) :
    fileFrom table path src' m starts' d = .error .exhausted ∨
      ∃ file' v' d', fileFrom table path src' m starts' d = .ok (file', d') ∧
        file'.decls = [.item (.var v')] ∧ v'.bare = v.bare := by
  obtain ⟨m, rfl⟩ : ∃ m', m = m' + 2 := ⟨m - 2, by omega⟩
  obtain ⟨v₀, c₁, typed, run⟩ := bind_ok run
  obtain ⟨ds, c₂, rest, run⟩ := bind_ok run
  obtain ⟨_, _, -, run⟩ := bind_ok run
  obtain ⟨rfl, -⟩ := pure_ok run
  injection one with same none
  cases same
  subst none
  have ended : c₁.current.kind = .eof := by
    generalize n - 1 = k at rest
    cases k with
    | zero => exact absurd rest exhausted_ok
    | succ k =>
      obtain ⟨b, _, seen, rest⟩ := bind_ok rest
      obtain ⟨rfl, rfl⟩ := check_ok seen
      split at rest
      · next ends => exact eq_of_beq ends
      · obtain ⟨_, _, -, rest⟩ := bind_ok rest
        obtain ⟨_, _, -, rest⟩ := bind_ok rest
        cases (pure_ok rest).1
  rcases fromType_agrees bracket related typed with spent | ⟨w, d₁, typed', same, bare⟩
  · left
    show (fromType table (m + 2) starts'.2 d >>= _) = _
    rw [spent]
    rfl
  · obtain ⟨fs, left, right⟩ := same
    have ended' : d₁.current.kind = .eof :=
      (congrArg Form.kind (right.current.trans left.current.symm)).trans ended
    have rest' : decls ⟨table, src', m + 2⟩ (m + 1) d₁ = .ok ([], d₁) := by
      rw [decls, declsWith]
      show (if (d₁.current.kind == .eof) = true then _ else _ : Reader _) d₁ = _
      rw [ended']
      rfl
    refine .inr ⟨⟨⟨starts'.1, d₁.current.pos⟩, path, [.item (.var w)]⟩, w, d₁, ?_, rfl, bare.symm⟩
    show (fromType table (m + 2) starts'.2 d >>= _) = _
    rw [typed']
    show (decls ⟨table, src', m + 2⟩ (m + 1) d₁ >>= _) = _
    rw [rest']
    rfl

end Reader

/-! ### An equals sign behind a type -/

section

variable {cs : List Char} {as : List Form} {t : TypeExpr}

theorem Token.assigned_equals {ds : List Char} :
    let first := Form.first ((assigned ('=' :: ds)).tokens.map form)
    first.kind = .op .assign ∨ first.kind = .op .equal := by
  have front : gap .blank .first ('=' :: ds) = .ok (.first, '=' :: ds) := by
    rw [gap, if_neg (by decide)] <;> simp
  have starts {o : Operator} {l : Lexeme} (here : lexeme (.op .assign) '=' ds = .ok l)
      (kind : l.kind = .op o) : (Form.first ((assigned ('=' :: ds)).tokens.map form)).kind = .op o := by
    rw [assigned, scanFrom_eq, front, afterGap, here]
    exact kind
  by_cases double : '=' ∈ ds.head?
  · obtain ⟨rest, rfl⟩ : ∃ rest, ds = '=' :: rest := by
      cases ds with
      | nil => cases double
      | cons c rest =>
        cases double
        exact ⟨rest, rfl⟩
    have longest : ∀ d ∈ rest.head?, Operator.equal.goesOn d = false := fun d _ => by
      refine List.any_eq_false.mpr fun longer _ => ?_
      cases longer <;> rintro ⟨⟩
    exact .inr (starts (@lexeme_symbol _ .equal '=' ['='] rest rfl (by decide)
      (fun minus => absurd minus (by decide)) longest) rfl)
  · have longest : ∀ d ∈ ds.head?, Operator.assign.goesOn d = false := fun d head =>
      goesOn_assigns (by decide) fun same => double (same ▸ head)
    exact .inl (starts (@lexeme_symbol _ .assign '=' [] ds rfl (by decide)
      (fun minus => absurd minus (by decide)) longest) rfl)

theorem TypeExpr.Spells.tokens_typed (h : t.Spells as) {rear : Token.Stream} {k : List Form}
    (tail : Tail rear cs k) (src : String) (text : src.toList = ("copy x: " ++ t.text).toList ++ cs) :
    (Token.stream src).tokens.map Token.form =
        Reader.opening ++ (Token.munch (as ++ k) ++ rear.tokens.map Token.form) ∧
      ((Token.stream src).Ends ↔ rear.Ends) := by
  have scanned := h.scans_typed tail .eof .first trivial
  rw [← text] at scanned
  have opening : Token.munch (⟨.storage .copy, "copy"⟩ :: ⟨.ident, "x"⟩ :: .op .colon :: (as ++ k)) =
      Reader.opening ++ Token.munch (as ++ k) := by
    rw [Token.munch_cons (f := ⟨.storage .copy, "copy"⟩) fun g _ => Token.join?_plain (by decide) g,
      Token.munch_cons (f := ⟨.ident, "x"⟩) fun g _ => Token.join?_plain (by decide) g,
      Token.munch_cons fun g _ => Token.join?_plain (by decide) g]
    rfl
  rw [opening, List.append_assoc] at scanned
  exact scanned

theorem TypeExpr.Spells.tokens_text (h : t.Spells as) :
    (Token.stream t.text).tokens.map Token.form = Token.munch as := by
  have scanned := (h.scans {} [] [] .nil .eof .first ⟨rfl, nofun⟩).1
  rwa [List.append_nil, List.append_nil, List.map_nil, List.append_nil] at scanned

end

/-- The last token of the text of a type is a star or a pair of closing brackets, which an equals
sign right behind it makes a longer operator of. -/
def TypeExpr.Fuses (t : TypeExpr) : Prop :=
  ∃ u ∈ (Token.stream t.text).tokens.getLast?, u.kind = .op .star ∨ u.kind = .op .shiftRight

theorem Reader.fileFrom_value {c : Cursor} {F : List Form} {V : List Form}
    (marks : ∀ f ∈ V, f.OfType) (holds : c.Holds (V ++ .op .assign :: F)) {table : Table}
    {path : String} {src : List Char} {n : Nat} {starts : Pos × Pos} {x : File × Cursor}
    (run : fileFrom table path src n starts c = .ok x) :
    (Form.first F).kind ≠ .op .assign ∧ (Form.first F).kind ≠ .op .equal := by
  obtain ⟨v, c₁, typed, -⟩ := bind_ok run
  have foreign : Foreign (.op .assign) := ⟨by decide, by decide⟩
  obtain ⟨t, c', here, rest⟩ := fromType_before foreign ⟨V, marks, holds⟩ typed
  obtain ⟨r, c₂, value, -⟩ := bind_ok rest
  obtain ⟨b, c₃, accepted, value⟩ := bind_ok value
  have accepts : Gives (acceptOp .assign) (.op .assign :: F) (· = true) F := by
    rw [← bind_pure (acceptOp .assign)]
    exact gives_accept rfl (.pure rfl)
  obtain ⟨_, _, run', behind, rfl⟩ := accepts c' here
  cases accepted.symm.trans run'
  obtain ⟨e, read, -⟩ := map_ok value
  have starts := expression_ok read
  have first : c₃.current.kind = (Form.first F).kind := congrArg Form.kind behind.current
  rwa [first] at starts

section

open Reader

variable {c d : Cursor} {front F : List Form} {last : Form} (marks : ∀ f ∈ front, f.OfType)
  (left : c.Holds (front ++ [last] ++ .op .assign :: F)) (right : d.Holds (front ++ last.with (.op .assign) ++ F))

include marks left right in
theorem Reader.fused_of_free (free : ¬ (last.kind = .op .star ∨ last.kind = .op .shiftRight)) :
    ∃ l : Form, l.kind = .op .greater ∧ Fused l F c d := by
  rw [List.append_assoc] at left right
  unfold Token.Form.with at right
  by_cases bracket : last.kind = .op .greater
  · rw [Token.Form.join?, bracket] at right
    exact ⟨last, bracket, .inl ⟨front, marks, left, right⟩⟩
  · have plain : last.kind ∉ [.op .greater, .op .shiftRight, .op .star] := by
      simp only [List.mem_cons, List.not_mem_nil, or_false]
      rintro (same | same | same)
      · exact bracket same
      · exact free (.inr same)
      · exact free (.inl same)
    rw [Token.join?_plain plain] at right
    exact ⟨.greater, rfl, .inr ⟨_, left, right⟩⟩

include marks right in
theorem Reader.before_of_fused (fused : last.kind = .op .star ∨ last.kind = .op .shiftRight) :
    ∃ h : Form, Foreign h ∧ h.kind ≠ .op .assign ∧ h.kind ≠ .op .semicolon ∧ Before h F d := by
  rw [List.append_assoc] at right
  unfold Token.Form.with Token.Form.join? at right
  rcases fused with kind | kind
  · rw [kind] at right
    exact ⟨.op .starAssign, ⟨by decide, by decide⟩, by decide, by decide, front, marks, right⟩
  · rw [kind] at right
    exact ⟨.op .shiftRightAssign, ⟨by decide, by decide⟩, by decide, by decide, front, marks, right⟩

end

theorem TypeExpr.Spells.fuses_iff {t : TypeExpr} {as front : List Form} {last : Form}
    (h : t.Spells as) (whole : Token.munch as = front ++ [last]) :
    t.Fuses ↔ last.kind = .op .star ∨ last.kind = .op .shiftRight := by
  have ends : (Token.stream t.text).tokens.getLast?.map Token.form = some last := by
    rw [← List.getLast?_map, h.tokens_text, whole, List.getLast?_concat]
  obtain ⟨u, found, rfl⟩ := Option.map_eq_some_iff.mp ends
  rw [TypeExpr.Fuses, found]
  exact ⟨fun ⟨_, same, kind⟩ => by cases same; exact kind, fun kind => ⟨u, rfl, kind⟩⟩

theorem TypeExpr.Spells.munch_marks {t : TypeExpr} {as : List Form} (h : t.Spells as) :
    ∀ f ∈ Token.munch as, f.OfType :=
  Token.munch_ofType fun f member => (h.marks f member).elim (fun same => .inr (.inl (same ▸ rfl))) .inl

section

open Reader

variable {t : TypeExpr} {as : List Form} {table : Table} {path e : String}

theorem TypeExpr.Spells.read_spaced (h : t.Spells as) {file : File}
    (read : File.read table path ("copy x: " ++ t.text ++ " = " ++ e ++ ";") = .ok file) :
    let cs := e.toList ++ [';']
    (Token.assigned cs).Ends ∧ (∀ d ∈ cs.head?, d ≠ '=') ∧
      ∃ n p c c', c.Holds (Token.munch as ++ .op .assign :: (Token.assigned cs).tokens.map Token.form) ∧
        fileFrom table path ("copy x: " ++ t.text ++ " = " ++ e ++ ";").toList n p c =
          .ok (file, c') := by
  intro cs
  have spaced : Tail _ (' ' :: '=' :: ' ' :: cs) [] := .spaced
  obtain ⟨tokens, ends⟩ :=
    h.tokens_typed spaced ("copy x: " ++ t.text ++ " = " ++ e ++ ";") (by simp [cs])
  have stop := (File.read_ended table path _).1 file read
  obtain ⟨n, p, c, -, holds, same⟩ := @read_goesOn _ table path _ tokens stop
  rw [List.append_nil] at holds
  rw [read, map_eq_pure_bind] at same
  obtain ⟨⟨file', c'⟩, run, same⟩ := except_bind_ok same.symm
  cases same
  refine ⟨ends.mp stop, ?_, n, p, c, c', holds, run⟩
  rintro d head rfl
  obtain ⟨ds, starts⟩ := List.head?_eq_some_iff.mp head
  obtain ⟨single, double⟩ := fileFrom_value h.munch_marks holds run
  have first := @Token.assigned_equals ds
  rw [← starts] at first
  exact first.elim single double

theorem TypeExpr.Spells.read_glued (h : t.Spells as)
    (ends : (Token.assigned (e.toList ++ [';'])).Ends)
    (other : ∀ d ∈ (e.toList ++ [';']).head?, d ≠ '=') :
    ∃ n p d, 1 < n ∧ d.Holds (Token.munch (as ++ [.op .assign]) ++
        (Token.assigned (e.toList ++ [';'])).tokens.map Token.form) ∧
      File.read table path ("copy x: " ++ t.text ++ "=" ++ e ++ ";") = Prod.fst <$>
        fileFrom table path ("copy x: " ++ t.text ++ "=" ++ e ++ ";").toList n p d := by
  obtain ⟨tokens, stop⟩ :=
    h.tokens_typed (.glued other) ("copy x: " ++ t.text ++ "=" ++ e ++ ";") (by simp)
  exact read_goesOn tokens (stop.mpr ends)

/-- An equals sign may stand right behind the type of a variable, and the same is read then, except
where the text of the type ends in a token that it makes a longer operator of. Behind these a space is
needed: nothing is read without one. -/
theorem space_behind_type {t : TypeExpr} (parsed : t.Parsed) {table : Table} {path e : String}
    {file : File} {d : VarDecl}
    (read : File.read table path ("copy x: " ++ t.text ++ " = " ++ e ++ ";") = .ok file)
    (one : file.decls = [.item (.var d)]) :
    let glued := File.read table path ("copy x: " ++ t.text ++ "=" ++ e ++ ";")
    (¬ t.Fuses → ∃ file' d', glued = .ok file' ∧ file'.decls = [.item (.var d')] ∧
      d'.bare = d.bare) ∧
    (t.Fuses → ∀ file', glued ≠ .ok file') := by
  intro glued
  obtain ⟨as, spells⟩ := parsed.spelled
  obtain ⟨ends, other, n, p, c, c', left, run⟩ := spells.read_spaced read
  obtain ⟨m, q, d', steps, right, same⟩ := @spells.read_glued _ _ table path e ends other
  obtain ⟨f, as', rfl, -⟩ := spells.head
  obtain ⟨front, last, whole, more⟩ := Token.munch_concat f as' (.op .assign)
  rw [whole] at left
  rw [more] at right
  have marks : ∀ f ∈ front, f.OfType := fun g member =>
    spells.munch_marks g (whole ▸ List.mem_append_left _ member)
  rw [spells.fuses_iff whole]
  refine ⟨fun free => ?_, fun fused file' read' => ?_⟩
  · obtain ⟨l, bracket, related⟩ := fused_of_free marks left right free
    rcases fileFrom_agrees bracket steps one related run with spent | ⟨file', v, _, read', decls, bare⟩
    · rw [spent] at same
      exact absurd ((File.read_ended table path _).2 _ same) id
    · rw [read'] at same
      exact ⟨file', v, same, decls, bare⟩
  · obtain ⟨h, foreign, unequal, unended, before⟩ := before_of_fused marks right fused
    have run' := same.symm.trans read'
    rw [map_eq_pure_bind] at run'
    obtain ⟨⟨_, _⟩, run', -⟩ := except_bind_ok run'
    obtain ⟨_, _, typed, -⟩ := bind_ok run'
    obtain ⟨u, d₁, here, typed⟩ := fromType_before foreign before typed
    have kind : d₁.current.kind = h.kind := congrArg Form.kind here.current
    rcases afterType_ok typed with next | next
    · exact unequal (kind.symm.trans next)
    · exact unended (kind.symm.trans next)

end

theorem TypeExpr.parsed_of_text {src text : String}
    (found : (Reader.type 20 ⟨(Token.stream src).tokens, (Token.stream src).stop, {}, []⟩).toOption.any
      (fun r => r.1.text = text) = true) : ∃ t : TypeExpr, t.Parsed ∧ t.text = text := by
  obtain ⟨⟨t, c⟩, read, same⟩ := (Option.any_eq_true _ _).mp found
  exact ⟨t, ⟨src, 20, _, c, List.suffix_rfl, .inl (toOption_eq_some read)⟩, of_decide_eq_true same⟩

theorem File.variable_of_text {src : String}
    (found : (File.read default "f" src).toOption.any (fun file =>
      match file.decls with
      | [.item (.var _)] => true
      | _ => false) = true) :
    ∃ file d, File.read default "f" src = .ok file ∧ file.decls = [.item (.var d)] := by
  obtain ⟨file, read, one⟩ := (Option.any_eq_true _ _).mp found
  split at one
  · next d decls => exact ⟨file, d, toOption_eq_some read, decls⟩
  · cases one

/-- Of three closing brackets the third is read off the operator that it makes with the equals sign.
Two of them make one with it that nothing is read off. -/
theorem space_behind_type_of_brackets :
    (∃ t : TypeExpr, t.Parsed ∧ t.text = "a<b<c<d>>>" ∧ ∃ file d file' d',
      File.read default "f" ("copy x: " ++ t.text ++ " = " ++ "p" ++ ";") = .ok file ∧
        file.decls = [.item (.var d)] ∧
      File.read default "f" ("copy x: " ++ t.text ++ "=" ++ "p" ++ ";") = .ok file' ∧
        file'.decls = [.item (.var d')] ∧ d'.bare = d.bare) ∧
    ∃ t : TypeExpr, t.Parsed ∧ t.text = "a<b<c>>" ∧
      (∃ file d, File.read default "f" ("copy x: " ++ t.text ++ " = " ++ "p" ++ ";") = .ok file ∧
        file.decls = [.item (.var d)]) ∧
      ∀ file', File.read default "f" ("copy x: " ++ t.text ++ "=" ++ "p" ++ ";") ≠ .ok file' := by
  constructor
  · obtain ⟨t, parsed, text⟩ : ∃ t : TypeExpr, t.Parsed ∧ t.text = "a<b<c<d>>>" :=
      @TypeExpr.parsed_of_text "a<b<c<d>>>" _ (by rw [Token.stream_ofList]; decide +kernel)
    obtain ⟨file, d, read, one⟩ : ∃ file d, File.read default "f"
        ("copy x: " ++ t.text ++ " = " ++ "p" ++ ";") = .ok file ∧ file.decls = [.item (.var d)] := by
      rw [text]
      exact File.variable_of_text (by decide +kernel)
    have free : ¬ t.Fuses := by
      rw [TypeExpr.Fuses, text]
      decide +kernel
    obtain ⟨file', d', read', one', bare⟩ := (space_behind_type parsed read one).1 free
    exact ⟨t, parsed, text, file, d, file', d', read, one, read', one', bare⟩
  · obtain ⟨t, parsed, text⟩ : ∃ t : TypeExpr, t.Parsed ∧ t.text = "a<b<c>>" :=
      @TypeExpr.parsed_of_text "a<b<c>>" _ (by rw [Token.stream_ofList]; decide +kernel)
    obtain ⟨file, d, read, one⟩ : ∃ file d, File.read default "f"
        ("copy x: " ++ t.text ++ " = " ++ "p" ++ ";") = .ok file ∧ file.decls = [.item (.var d)] := by
      rw [text]
      exact File.variable_of_text (by decide +kernel)
    have fused : t.Fuses := by
      rw [TypeExpr.Fuses, text]
      decide +kernel
    exact ⟨t, parsed, text, ⟨file, d, read, one⟩, (space_behind_type parsed read one).2 fused⟩

/-- What is said about a text that is not read for its grammar. -/
def File.parseMessage? : Except SyntaxError File → Option String
  | .error (.parse e) => some e.message
  | _ => none

/-- The star of a type is lost in an operator where no space stands behind it. -/
theorem star_lost_in_assignment :
    (∃ t : TypeExpr, t.Parsed ∧ t.text = "int*") ∧
    (∃ file d, File.read default "f" "copy x: int* = p;" = .ok file ∧ file.decls = [.item (.var d)]) ∧
    ∃ e, File.read default "f" "copy x: int*=p;" = .error (.parse e) ∧
      e.message = "parse error at line 1, column 12: unexpected token \"*=\", expected \";\"" := by
  refine ⟨@TypeExpr.parsed_of_text "int*" _ (by rw [Token.stream_ofList]; decide +kernel),
    File.variable_of_text (by rw [File.read_ofList]; decide +kernel), ?_⟩
  have failed : File.parseMessage? (File.read default "f" "copy x: int*=p;") = some
      "parse error at line 1, column 12: unexpected token \"*=\", expected \";\"" := by
    rw [File.read_ofList]
    decide +kernel
  unfold File.parseMessage? at failed
  split at failed
  · next e read => exact ⟨e, read, Option.some.inj failed⟩
  · cases failed

end TastyLang
