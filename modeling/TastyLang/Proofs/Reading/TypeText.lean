import TastyLang.Proofs.Evaluation
import TastyLang.Proofs.Reading.Cursor
import TastyLang.Proofs.Reading.Spelling
import TastyLang.Reading.Declarations

/-!
# Types written down and read again

Whatever a reader of types gives in front of tokens of a text was read from the tokens that it is
written as (`type_yields`). So its text is read as the type of a variable again (`type_round_trip`).
-/

namespace TastyLang

open Token (Form Scans Tail)

/-- The names and numbers in front of the cursor could stand elsewhere. -/
def Cursor.Plain (c : Cursor) : Prop := ∀ t ∈ c.rest, t.Plain

namespace Reader

variable {α β : Type} {good : α → Prop} {good' : β → Prop}

/-- What `r` gives in front of plain tokens is good, and it leaves such tokens. -/
def Yields (r : Reader α) (good : α → Prop) : Prop :=
  ∀ ⦃c c' : Cursor⦄ ⦃a : α⦄, c.Plain → r c = .ok (a, c') → c'.Plain ∧ good a

theorem Yields.bind {r : Reader α} {g : α → Reader β} (first : Yields r good)
    (next : ∀ a, good a → Yields (g a) good') : Yields (r >>= g) good' := by
  intro c c' b plain h
  obtain ⟨a, c₁, run, h⟩ := bind_ok h
  obtain ⟨plain₁, ok⟩ := first plain run
  exact next a ok plain₁ h

theorem Yields.pure {a : α} (h : good a) : Yields (Pure.pure a) good := by
  intro c c' b plain run
  obtain ⟨rfl, rfl⟩ := pure_ok run
  exact ⟨plain, h⟩

theorem Yields.never {r : Reader α} (fails : ∀ {c r'}, r c ≠ .ok r') : Yields r good :=
  fun _ _ _ _ run => absurd run fails

/-! ### Steps -/

theorem current_yields : Yields current Token.Plain := by
  intro c c' t plain h
  obtain ⟨rfl, rfl⟩ := current_ok h
  refine ⟨plain, ?_⟩
  unfold Cursor.current
  split
  · next t ts same => exact plain t (same ▸ List.mem_cons_self)
  · exact ⟨nofun, nofun⟩

theorem advance_yields : Yields advance fun _ => True := by
  intro c c' _ plain h
  obtain rfl := advance_eq h
  exact ⟨fun t member => plain t (List.mem_of_mem_tail member), trivial⟩

theorem pos_yields : Yields pos fun _ => True :=
  current_yields.bind fun _ _ => .pure trivial

theorem nextKind_yields : Yields nextKind fun _ => True :=
  fun _ _ _ plain h => ⟨nextKind_ok h ▸ plain, trivial⟩

theorem spanFrom_yields {p : Pos} : Yields (spanFrom p) fun _ => True := by
  intro c c' s plain h
  cases h
  exact ⟨plain, trivial⟩

theorem check_yields {k : Token.Kind} : Yields (check k) fun _ => True :=
  current_yields.bind fun _ _ => .pure trivial

theorem accept_yields {k : Token.Kind} : Yields (accept k) fun _ => True :=
  check_yields.bind fun b _ => by
    split
    · exact advance_yields.bind fun _ _ => .pure trivial
    · exact .pure trivial

theorem expect_yields {k : Token.Kind} : Yields (expect k) fun _ => True :=
  current_yields.bind fun t _ => by
    split
    · exact advance_yields.bind fun _ _ => .pure trivial
    · exact .never unexpected_ok

theorem unclosed_yields {opener : Token} {g : PUnit → Reader α} :
    Yields (unclosed opener >>= g) good :=
  Yields.bind (.never unclosed_ok) fun _ => False.elim

theorem discard_yields {r : Reader α} (h : Yields r good) : Yields (discard r) fun _ => True := by
  intro c c' _ plain run
  obtain ⟨a, run⟩ := discard_ok run
  exact ⟨(h plain run).1, trivial⟩

theorem close_yields {o : Operator} {opener : Token} : Yields (close o opener) fun _ => True :=
  check_yields.bind fun b _ => by
    split
    · exact unclosed_yields
    · exact discard_yields expect_yields

theorem name_yields : Yields name Token.IsName :=
  current_yields.bind fun t plain => by
    split
    · next ident => exact advance_yields.bind fun _ _ => .pure (plain.name (eq_of_beq ident))
    · exact .never failAt_ok

/-! ### Loops -/

theorem commaList_yields {opener : Token} {closer : Operator} {item : Reader α}
    (h : Yields item good) (n : Nat) :
    Yields (commaList opener closer item n) fun xs => ∀ x ∈ xs, good x := by
  induction n with
  | zero => exact .never exhausted_ok
  | succ n ih =>
    refine check_yields.bind fun b _ => ?_
    split
    · exact close_yields.bind fun _ _ => .pure nofun
    · refine check_yields.bind fun b _ => ?_
      split
      · exact unclosed_yields
      · refine h.bind fun x ok => accept_yields.bind fun b _ => ?_
        split
        · exact ih.bind fun xs more => .pure (List.forall_mem_cons.mpr ⟨ok, more⟩)
        · exact close_yields.bind fun _ _ => .pure (List.forall_mem_singleton.mpr ok)

theorem iterate_yields {step : α → Reader (Option α)}
    (once : ∀ x, good x → Yields (step x) fun r => ∀ y, r = some y → good y) {n : Nat} {x : α}
    (start : good x) : Yields (iterate step n x) good := by
  induction n generalizing x with
  | zero => exact .never exhausted_ok
  | succ n ih =>
    refine (once x start).bind fun r ok => ?_
    cases r with
    | none => exact .pure start
    | some y => exact ih (ok y rfl)

theorem stars_yields (n : Nat) : Yields (stars n) fun _ => True :=
  iterate_yields (fun _ _ => accept_yields.bind fun b _ => by
    split <;> exact .pure fun _ _ => trivial) trivial

theorem dottedName_yields (n : Nat) : Yields (dottedName n) fun s => ∃ fs, Dotted s fs := by
  refine name_yields.bind fun w word => iterate_yields ?_ ⟨_, .word word⟩
  rintro s ⟨fs, name⟩
  refine check_yields.bind fun b _ => nextKind_yields.bind fun k _ => ?_
  split
  · refine advance_yields.bind fun _ _ => name_yields.bind fun w word => .pure ?_
    rintro _ ⟨⟩
    exact ⟨_, .dot name word⟩
  · exact .pure nofun

/-! ### Types -/

theorem closeTemplate_yields : Yields closeTemplate fun _ => True := by
  refine current_yields.bind fun t _ => ?_
  have left {o : Operator} (u : Token) (kind : u.kind = .op o) :
      Yields (closeTemplate.splitOff t u) fun _ => True := by
    intro c c' _ plain h
    obtain rfl := modify_ok h
    refine ⟨List.forall_mem_cons.mpr ⟨⟨?_, ?_⟩, fun t member => ?_⟩, trivial⟩
    · rw [kind]
      exact nofun
    · rw [kind]
      exact nofun
    · exact plain t (List.mem_of_mem_tail member)
  split
  · exact advance_yields
  · exact left _ rfl
  · exact left _ rfl
  · exact .never unexpected_ok

/-- A type that is written as some tokens. -/
def Spelled (t : TypeExpr) : Prop := ∃ as, t.Spells as

variable {item : Reader TypeExpr} (spelled : Yields item Spelled)

include spelled

theorem templateArg_yields : Yields (templateArg item) fun t => ∃ as, t.Argues as := by
  refine current_yields.bind fun t plain => ?_
  split
  · next number =>
    exact advance_yields.bind fun _ _ => spanFrom_yields.bind fun span _ =>
      .pure ⟨_, .number (plain.number (eq_of_beq number))⟩
  · intro c c' t plain h
    obtain ⟨plain', as, spells⟩ := spelled plain h
    exact ⟨plain', as, spells.argues⟩

theorem templateArgs_yields (opener : Token) (n : Nat) :
    Yields (templateArgs opener item n) fun ts =>
      ts ≠ [] ∧ ∃ as, TypeExpr.Lists TypeExpr.Argues ts as := by
  induction n with
  | zero => exact .never exhausted_ok
  | succ n ih =>
    refine check_yields.bind fun b _ => ?_
    split
    · exact unclosed_yields
    · refine (templateArg_yields spelled).bind fun t argues => accept_yields.bind fun b _ => ?_
      obtain ⟨as, argues⟩ := argues
      split
      · refine ih.bind fun ts more => .pure ⟨nofun, ?_⟩
        obtain ⟨some, bs, lists⟩ := more
        cases ts with
        | nil => exact absurd rfl some
        | cons u us => exact ⟨_, .cons argues lists⟩
      · exact closeTemplate_yields.bind fun _ _ => .pure ⟨nofun, as, .single argues⟩

theorem nameAndArgs_yields (n : Nat) :
    Yields (nameAndArgs n item) fun r => ∃ fs, TypeExpr.Applied r.1 r.2 fs := by
  refine (dottedName_yields n).bind fun s name => current_yields.bind fun t _ => ?_
  obtain ⟨fs, name⟩ := name
  split
  · refine advance_yields.bind fun _ _ => ?_
    refine (templateArgs_yields spelled t n).bind fun ts args => .pure ?_
    obtain ⟨some, as, lists⟩ := args
    exact ⟨_, .args name some lists⟩
  · exact .pure ⟨_, .plain name⟩

omit spelled

variable {m n : Nat}

theorem lists_of_spelled {ts : List TypeExpr} (h : ∀ t ∈ ts, Spelled t) :
    ∃ as, TypeExpr.Lists TypeExpr.Spells ts as := by
  induction ts with
  | nil => exact ⟨_, .nil⟩
  | cons t ts ih =>
    obtain ⟨⟨as, spells⟩, more⟩ := List.forall_mem_cons.mp h
    obtain ⟨bs, lists⟩ := ih more
    cases ts with
    | nil => exact ⟨_, .single spells⟩
    | cons u us => exact ⟨_, .cons spells lists⟩

theorem stars_ok {c c' : Cursor} {k m : Nat} (h : iterate (fun i => do
      if ← acceptOp .star then return some (i + 1)
      return none) n m c = .ok (k, c')) :
    c'.current.kind ≠ .op .star ∧ (c.current.kind ≠ .op .star → k = m ∧ c' = c) := by
  induction n generalizing c m with
  | zero => exact absurd h exhausted_ok
  | succ n ih =>
    obtain ⟨r, c₁, step, h⟩ := bind_ok h
    obtain ⟨b, c₀, accepted, step⟩ := bind_ok step
    obtain ⟨b', _, seen, accepted⟩ := bind_ok accepted
    obtain ⟨rfl, rfl⟩ := check_ok seen
    split at accepted
    · next star =>
      obtain ⟨_, _, -, accepted⟩ := bind_ok accepted
      obtain ⟨rfl, rfl⟩ := pure_ok accepted
      obtain ⟨rfl, rfl⟩ := pure_ok step
      exact ⟨(ih h).1, fun other => absurd (eq_of_beq star) other⟩
    · next other =>
      obtain ⟨rfl, rfl⟩ := pure_ok accepted
      obtain ⟨rfl, rfl⟩ := pure_ok step
      obtain ⟨rfl, rfl⟩ := pure_ok h
      exact ⟨fun same => other (beq_iff_eq.mpr same), fun _ => ⟨rfl, rfl⟩⟩

theorem type_ok {c c' : Cursor} {t : TypeExpr} (h : type n c = .ok (t, c')) :
    c'.current.kind ≠ .op .star := by
  have ends {m : Nat} {mk : Nat → Span → TypeExpr} {p : Pos} {c : Cursor}
      (h : (stars m >>= fun k => spanFrom p >>= fun span => pure (mk k span)) c = .ok (t, c')) :
      c'.current.kind ≠ .op .star := by
    obtain ⟨k, c₁, counted, h⟩ := bind_ok h
    obtain ⟨-, rfl⟩ := finish_ok h
    exact (stars_ok counted).1
  cases n with
  | zero => exact absurd h exhausted_ok
  | succ n =>
    rw [type] at h
    obtain ⟨p, _, -, h⟩ := bind_ok h
    obtain ⟨u, _, -, h⟩ := bind_ok h
    generalize u.kind = kind at h
    split at h
    · obtain ⟨_, _, -, h⟩ := bind_ok h
      obtain ⟨ts, _, -, h⟩ := bind_ok h
      exact ends h
    · obtain ⟨_, _, -, h⟩ := bind_ok h
      obtain ⟨_, _, -, h⟩ := bind_ok h
      obtain ⟨ts, _, -, h⟩ := bind_ok h
      obtain ⟨r, _, -, h⟩ := bind_ok h
      exact ends h
    · obtain ⟨r, _, -, h⟩ := bind_ok h
      exact ends h

theorem result_yields {g : Option TypeExpr → Nat → Reader α} (spelled : Yields (type n) Spelled)
    (without : ∀ k, Yields (g none k) good) (next : ∀ r, Spelled r → Yields (g (some r) 0) good) :
    Yields (after? (acceptOp .arrow) (type n) >>= fun r => stars m >>= g r) good := by
  intro c c' a plain h
  obtain ⟨r, c₁, run, starred⟩ := bind_ok h
  obtain ⟨k, c₂, counted, last⟩ := bind_ok starred
  obtain ⟨b, c₀, lead, run⟩ := bind_ok run
  have plain₀ := (accept_yields plain lead).1
  split at run
  · obtain ⟨t, read, rfl⟩ := map_ok run
    obtain ⟨plain₁, result⟩ := spelled plain₀ read
    obtain ⟨rfl, rfl⟩ := (stars_ok counted).2 (type_ok read)
    exact next t result plain₁ last
  · obtain ⟨rfl, rfl⟩ := pure_ok run
    exact without k (stars_yields m plain₀ counted).1 last

theorem type_yields (n : Nat) : Yields (type n) Spelled := by
  induction n with
  | zero => exact .never exhausted_ok
  | succ n ih =>
    rw [type]
    refine pos_yields.bind fun p _ => current_yields.bind fun t _ => ?_
    split
    · refine advance_yields.bind fun _ _ => (commaList_yields ih n).bind fun ts spelled => ?_
      refine (stars_yields n).bind fun k _ => spanFrom_yields.bind fun span _ => .pure ?_
      obtain ⟨as, lists⟩ := lists_of_spelled spelled
      exact ⟨_, .tuple lists⟩
    · refine advance_yields.bind fun _ _ => expect_yields.bind fun opener _ => ?_
      refine (commaList_yields ih n).bind fun ts spelled => ?_
      obtain ⟨as, lists⟩ := lists_of_spelled spelled
      refine result_yields ih (fun k => ?_) fun r result => ?_
      · exact spanFrom_yields.bind fun span _ => .pure ⟨_, .func lists⟩
      · obtain ⟨bs, result⟩ := result
        exact spanFrom_yields.bind fun span _ => .pure ⟨_, .arrow lists result⟩
    · refine (nameAndArgs_yields ih n).bind fun r applied => ?_
      obtain ⟨fs, applied⟩ := applied
      refine (stars_yields n).bind fun k _ => spanFrom_yields.bind fun span _ => .pure ?_
      exact ⟨_, .named applied⟩

theorem typeName_yields (n : Nat) : Yields (typeName n) Spelled := by
  refine pos_yields.bind fun p _ => (nameAndArgs_yields (type_yields n) n).bind fun r applied => ?_
  obtain ⟨fs, applied⟩ := applied
  exact spanFrom_yields.bind fun span _ => .pure ⟨_, .named applied⟩

end Reader

/-! ### Variables -/

/-- A reader of types gives `t` somewhere in a text. A number is no such type: it only stands among
the arguments of a template. -/
def TypeExpr.Parsed (t : TypeExpr) : Prop :=
  ∃ (src : String) (n : Nat) (c c' : Cursor), c.rest <:+ (Token.stream src).tokens ∧
    (Reader.type n c = .ok (t, c') ∨ Reader.typeName n c = .ok (t, c'))

theorem TypeExpr.Parsed.spelled {t : TypeExpr} (h : t.Parsed) : Reader.Spelled t := by
  obtain ⟨src, n, c, c', suffix, run⟩ := h
  have plain : c.Plain := fun t member => Token.scanFrom_plain _ _ _ t (suffix.subset member)
  rcases run with run | run
  · exact (Reader.type_yields n plain run).2
  · exact (Reader.typeName_yields n plain run).2

section

open Reader

variable {t : TypeExpr} {as : List Form} {n : Nat}

theorem TypeExpr.Spells.scans_typed (h : t.Spells as) {rear : Token.Stream} {k : List Form}
    {cs : List Char}
    (tail : Tail rear cs k) : Scans rear Token.Kind.Any (("copy x: " ++ t.text).toList ++ cs)
      (⟨.storage .copy, "copy"⟩ :: ⟨.ident, "x"⟩ :: .op .colon :: (as ++ k)) := by
  have colon : Scans rear Token.Kind.Any (':' :: ' ' :: (t.text.toList ++ cs)) _ :=
    Token.scans_colon (h.scans rear _ _ tail)
  have isName : Token.IsName "x" := ⟨rfl, 'x', [], rfl, rfl, nofun⟩
  have name : Scans rear (· = Token.Kind.ofWord "copy")
      ("x".toList ++ ':' :: ' ' :: (t.text.toList ++ cs)) _ :=
    Token.scans_name isName (by rintro d ⟨⟩; rfl) colon
  rw [String.toList_append, List.append_assoc]
  have word : ∀ d ∈ ['o', 'p', 'y'], Token.isWordChar d = true := List.all_eq_true.mp rfl
  apply Token.scans_word (w := "copy") rfl rfl word _ (Token.scans_space name)
  rintro d ⟨⟩
  rfl

theorem TypeExpr.Spells.tokens_variable (h : t.Spells as) :
    let src := "copy x: " ++ t.text ++ ";"
    ((Token.stream src).tokens.map Token.form).flatMap Form.split =
      ⟨.storage .copy, "copy"⟩ :: ⟨.ident, "x"⟩ :: .op .colon :: (as ++ [.op .semicolon]) ∧
    ∃ p, (Token.stream src).stop = .ok p := by
  intro src
  have text : src.toList = ("copy x: " ++ t.text).toList ++ [';'] := String.toList_append
  obtain ⟨tokens, stop⟩ := h.scans_typed .semicolon .eof .first trivial
  rw [Token.stream, text]
  refine ⟨?_, stop.mpr ⟨_, rfl⟩⟩
  rw [tokens, List.map_nil, List.append_nil]
  refine Token.split_munch fun f member => ?_
  have apart : ∀ k ∈ Token.Kind.ofTypes, k ∉ [.op .greater, .op .assign, .op .shiftRight] := by decide
  rw [List.mem_cons, List.mem_cons, List.mem_cons, List.mem_append, List.mem_singleton] at member
  rcases member with rfl | rfl | rfl | member | rfl
  · exact .inr (by decide)
  · exact .inr (by decide)
  · exact .inr (by decide)
  · exact (h.marks f member).imp_right fun kind => apart _ kind
  · exact .inr (by decide)

theorem TypeExpr.Spells.restores_varDecl (h : t.Spells as) (enough : effort as < n)
    {table : Table} {start : Pos} {ms : Modifiers} {attrs : List AttributeUse} :
    Restores (fun _ => True) (varDecl table n start ms attrs)
      (⟨.storage .copy, "copy"⟩ :: ⟨.ident, "x"⟩ :: .op .colon :: (as ++ [.op .semicolon]))
      fun d => d.name = "x" ∧ ∃ t', d.type = some t' ∧ t'.bare = t.bare := by
  have word : Restores (fun _ => True) storage [⟨.storage .copy, "copy"⟩] fun _ => True :=
    restores_step nofun fun _ => gives_current fun p => gives_advance (.pure trivial)
  refine word.bind (fun _ _ => trivial) fun s _ => restores_name ?_
  refine restores_after nofun (h.reads n enough) (fun _ _ => ends_of (by decide)) fun t' same => ?_
  refine restores_without nofun (fun _ _ => nofun) (restores_semicolon ?_)
  exact restores_spanFrom fun span => .pure ⟨rfl, t', rfl, same⟩

theorem restores_lead {α : Type} {behind : List Form → Prop} {good : α → Prop} {table : Table}
    {src : List Char} {g : List AttributeUse → Pos → Modifiers → Reader α} (some : 0 < n)
    (next : ∀ p, Restores behind (g [] p {}) (⟨.storage .copy, "copy"⟩ :: as) good) :
    Restores behind (do
      let attrs ← attributeUses ⟨table, src, n⟩
      let start ← Reader.pos
      let ms ← modifiers n
      g attrs start ms) (⟨.storage .copy, "copy"⟩ :: as) good := by
  obtain ⟨n, rfl⟩ : ∃ n', n = n' + 1 := ⟨n - 1, by omega⟩
  unfold attributeUses many manyWith attributeUse? checkOp modifiers iterate iterateWith modifier
  simp only [bind_assoc]
  refine restores_check (by decide) ?_
  rw [if_neg (by decide), pure_bind, pure_bind]
  exact restores_pos fun p => restores_current (by decide) fun p' => next p

theorem TypeExpr.Spells.restores_decl (h : t.Spells as) (enough : effort as < n) {table : Table}
    {src : List Char} : Restores (fun _ => True) (decl ⟨table, src, n⟩ n)
      (⟨.storage .copy, "copy"⟩ :: ⟨.ident, "x"⟩ :: .op .colon :: (as ++ [.op .semicolon]))
      fun d => ∃ v, d = .item (.var v) ∧ v.name = "x" ∧
        ∃ t', v.type = some t' ∧ t'.bare = t.bare := by
  obtain ⟨n, rfl⟩ : ∃ n', n = n' + 1 := ⟨n - 1, by omega⟩
  rw [decl, declWith]
  refine restores_lead (Nat.succ_pos n) fun p => restores_current (by decide) fun p' => ?_
  show Restores _ ((Decl.item ∘ Item.var) <$> varDecl table (n + 1) p {} []) _ _
  rw [map_eq_pure_bind, ← List.append_nil (_ :: _)]
  refine (h.restores_varDecl enough).bind (fun _ _ => trivial) fun v read => .pure ?_
  exact ⟨v, rfl, read⟩

theorem TypeExpr.Spells.restores_file (h : t.Spells as) (enough : effort as + 4 < n)
    {table : Table} {path : String} {src : List Char} :
    Restores (· = []) (do
      let start ← Reader.pos
      let ds ← Reader.decls ⟨table, src, n⟩ n
      return (⟨⟨start, ← Reader.pos⟩, path, ds⟩ : File))
      (⟨.storage .copy, "copy"⟩ :: ⟨.ident, "x"⟩ :: .op .colon :: (as ++ [.op .semicolon]))
      fun file => ∃ d, file.decls = [.item (.var d)] ∧ d.name = "x" ∧
        ∃ t', d.type = some t' ∧ t'.bare = t.bare := by
  obtain ⟨n, rfl⟩ : ∃ n', n = n' + 2 := ⟨n - 2, by omega⟩
  refine restores_pos fun start => ?_
  have read := @h.restores_decl _ _ (n + 2) (by omega) table src
  have rest : Restores (· = []) (decls ⟨table, src, n + 2⟩ (n + 1)) [] (· = []) :=
    restores_end (.pure rfl)
  rw [decls, declsWith, bind_assoc]
  refine restores_check (by decide) ?_
  rw [if_neg (by decide), bind_assoc, ← List.append_nil (_ :: _)]
  refine read.bind (fun _ _ => trivial) ?_
  rintro _ ⟨v, rfl, read⟩
  rw [bind_assoc, ← List.append_nil []]
  refine rest.bind (fun _ fits => fits) ?_
  rintro _ rfl
  rw [pure_bind]
  exact restores_pos fun stop => .pure ⟨v, rfl, read⟩

end

/-- A type that was read is read again from its text, as the type of a variable. Types of the same
text are the same. -/
theorem type_round_trip {t : TypeExpr} (parsed : t.Parsed) (table : Table) (path : String) :
    (∃ file d, File.read table path ("copy x: " ++ t.text ++ ";") = .ok file ∧
      file.decls = [.item (.var d)] ∧ d.name = "x" ∧ d.type.map TypeExpr.bare = some t.bare) ∧
    ∀ u : TypeExpr, u.Parsed → u.text = t.text → u.bare = t.bare := by
  have trip {t : TypeExpr} (parsed : t.Parsed) :
      ∃ file, File.read table path ("copy x: " ++ t.text ++ ";") = .ok file ∧
        ∃ d, file.decls = [.item (.var d)] ∧ d.name = "x" ∧
          ∃ t', d.type = some t' ∧ t'.bare = t.bare := by
    obtain ⟨as, spells⟩ := parsed.spelled
    obtain ⟨tokens, stop⟩ := spells.tokens_variable
    refine Reader.run_restores tokens stop fun n enough => spells.restores_file ?_
    rw [Reader.effort_cons (by decide), Reader.effort_cons (by decide),
      Reader.effort_cons (by decide), Reader.effort_append] at enough
    omega
  obtain ⟨file, read, d, decls, name, t', type, same⟩ := trip parsed
  refine ⟨⟨file, d, read, decls, name, by rw [type, ← same]; rfl⟩, fun u parsed' text => ?_⟩
  obtain ⟨file', read', d', decls', -, u', type', same'⟩ := trip parsed'
  rw [text, read] at read'
  cases read'
  cases decls.symm.trans decls'
  cases type.symm.trans type'
  exact same'.symm.trans same

/-- Brackets that are closed together, a number, and stars that belong to a result. -/
theorem type_round_trip_of_nested :
    ∃ t : TypeExpr, t.Parsed ∧ t.text = "map<vec<vec<int>>, fn((a, b*)) -> c.d<-1>*>**" ∧
      (∃ file d, File.read default "f" ("copy x: " ++ t.text ++ ";") = .ok file ∧
        file.decls = [.item (.var d)] ∧ d.name = "x" ∧ d.type.map TypeExpr.bare = some t.bare) ∧
      ∀ u : TypeExpr, u.Parsed → u.text = t.text → u.bare = t.bare := by
  let src := "map < vec< vec<int>>,fn( (a,b*), )->c . d< -1>*>* * = 1;"
  let start : Cursor := ⟨(Token.stream src).tokens, (Token.stream src).stop, {}, []⟩
  have written : (Reader.type 20 start).toOption.map (fun r => r.1.text) =
      some "map<vec<vec<int>>, fn((a, b*)) -> c.d<-1>*>**" := by
    dsimp only [start]
    rw [Token.stream_ofList]
    decide +kernel
  obtain ⟨⟨t, c'⟩, found, text⟩ := Option.map_eq_some_iff.mp written
  have parsed : t.Parsed :=
    ⟨src, 20, start, c', List.suffix_rfl, .inl (toOption_eq_some found)⟩
  exact ⟨t, parsed, text, type_round_trip parsed default "f"⟩

end TastyLang
