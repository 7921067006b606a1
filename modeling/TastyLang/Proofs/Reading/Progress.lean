import TastyLang.Proofs.Reading.Cursor
import TastyLang.Proofs.Token.Places
import TastyLang.Reading.Expressions

/-!
# How readers fail

A reader that has more steps than there is left to read fails in the text: where a token stands
that it cannot read, or with the lexical error that ends the text. `Takes src d m r good` says so of
`r` on cursors with less than `m` left to read; where `r` gives a value, it has read `d` or more, and
the value is good. Each reader of types and expressions has one lemma, and steps are counted there only.
-/

namespace TastyLang

/-! ### Places to fail at -/

/-- A place in the text in front of the one where cutting it into tokens fails. -/
structure Pos.Readable (src : String) (p : Pos) : Prop where
  inside : p.IsIn src.toList
  early : ∀ e, (Token.stream src).stop = .error e → p.offset < e.pos.offset

/-- The errors that reading a text can end in. -/
def SyntaxError.Arises (src : String) : SyntaxError → Prop
  | .scan e => (Token.stream src).stop = .error e
  | .parse e => e.pos.Readable src
  | .exhausted => False

/-- A token that can be read, also one character after the other. -/
structure Token.Readable (src : String) (t : Token) : Prop where
  start : t.pos.Readable src
  symbol : ∀ o, t.kind = .op o → t.literal = o.symbol
  second : ∀ o, t.kind = .op o → 2 ≤ o.symbol.length → (t.pos.shift 1).Readable src

theorem Token.stream_readable (src : String) : ∀ t ∈ (stream src).tokens, t.Readable src := by
  intro t member
  have stands := (stream_stands src).1 t member
  obtain ⟨before, sound⟩ := (stream_ordered src).before t member
  have stop {e : ScanError} (failed : (stream src).stop = .error e) :
      (stream src).stopPos = e.pos := by
    rw [Stream.stopPos, failed]
  refine ⟨⟨stands.start, fun e failed => stop failed ▸ before.start⟩, sound.symbol,
    fun o same wide => ⟨stands.second o same, fun e failed => ?_⟩⟩
  have long := before.stop
  rw [sound.symbol o same, stop failed, String.length] at long
  rw [String.length] at wide
  show t.pos.offset + 1 < _
  omega

namespace Cursor

variable {src : String} {c : Cursor}

/-- The tokens of a text from one of them on, also when the first of its two characters is read. -/
inductive Along (src : String) : List Token → Prop
  | whole {rest : List Token} (tail : rest <:+ (Token.stream src).tokens) : Along src rest
  | second {t left : Token} {rest : List Token} (tail : t :: rest <:+ (Token.stream src).tokens)
      (sign : left.kind = .op .greater ∨ left.kind = .op .assign)
      (place : left.pos = t.pos.shift 1) (wide : t.literal.length = 2)
      (narrow : left.literal.length = 1) : Along src (left :: rest)

theorem Along.tail {ts : List Token} (h : Along src ts) : Along src ts.tail := by
  cases h with
  | whole tail => exact .whole ((List.tail_suffix ts).trans tail)
  | second tail => exact .whole ((List.suffix_cons _ _).trans tail)

/-- A cursor in the tokens of a text. It never stands at the lexical error. -/
structure On (src : String) (c : Cursor) : Prop where
  stop : c.stop = (Token.stream src).stop
  along : Along src c.rest
  tokens : ∀ t ∈ c.rest, t.Readable src
  marks : ∀ t ∈ c.rest, t.kind ≠ .eof
  ends : c.rest = [] → ∃ p, c.stop = .ok p

theorem On.current (h : c.On src) : c.current.Readable src := by
  unfold Cursor.current
  split
  · next t ts same => exact h.tokens t (same ▸ List.mem_cons_self)
  · next none =>
    obtain ⟨p, stop⟩ := h.ends none
    refine ⟨⟨?_, fun e failed => ?_⟩, nofun, nofun⟩
    · have inside := (Token.stream_stands src).2
      rw [Token.Stream.stopPos, ← h.stop] at inside
      exact inside
    · rw [← h.stop, stop] at failed
      cases failed

theorem rest_of_kind (h : c.current.kind ≠ .eof) : c.rest = c.current :: c.rest.tail := by
  unfold Cursor.current at h ⊢
  cases rest : c.rest with
  | nil =>
    rw [rest] at h
    exact absurd rfl h
  | cons t ts => rfl

theorem weight_nil (h : c.rest = []) : c.weight = 0 := by
  rw [weight, h, List.foldl_nil]

theorem weight_cons {t : Token} {ts : List Token} (h : c.rest = t :: ts) :
    c.weight = t.literal.length + 1 + weight { c with rest := ts } := by
  have front : ∀ (ts : List Token) (n : Nat), ts.foldl (fun n t => n + t.literal.length + 1) n =
      n + ts.foldl (fun n t => n + t.literal.length + 1) 0 := by
    intro ts
    induction ts with
    | nil => exact fun n => rfl
    | cons t ts ih =>
      intro n
      rw [List.foldl_cons, List.foldl_cons, ih, ih (0 + _ + 1)]
      omega
  rw [weight, weight, h, List.foldl_cons, front]
  dsimp only
  omega

theorem checked_ok {c' : Cursor} (h : c.checked = .ok c') :
    c' = c ∧ (c.rest = [] → ∃ p, c.stop = .ok p) := by
  unfold checked at h
  split at h
  · cases h
  · next passes =>
    cases h
    refine ⟨rfl, fun none => ?_⟩
    cases stop : c.stop with
    | ok p => exact ⟨p, rfl⟩
    | error e => exact (passes e none stop).elim

theorem checked_error {failure : SyntaxError} (h : c.checked = .error failure) :
    ∃ e, c.stop = .error e ∧ failure = .scan e := by
  unfold checked at h
  split at h
  · next e _ stop =>
    cases h
    exact ⟨e, stop, rfl⟩
  · cases h

end Cursor

namespace Reader

variable {α β : Type} {src : String} {t : Token} {d e m k : Nat}
  {good : α → Prop} {good' : β → Prop}

/-- What came of a reader that started at `c`: it read `d` or more to give a good value, or failed
in the text. -/
structure Ended (src : String) (d : Nat) (good : α → Prop) (c : Cursor)
    (run : Except SyntaxError (α × Cursor)) : Prop where
  gave : ∀ a c', run = .ok (a, c') → c'.On src ∧ c'.weight + d ≤ c.weight ∧ good a
  failed : ∀ e, run = .error e → e.Arises src

/-- So ends `r` where `t` is the token at the cursor and less than `m` is left to read. -/
def TakesAt (src : String) (t : Token) (d m : Nat) (r : Reader α) (good : α → Prop) : Prop :=
  ∀ c : Cursor, c.On src → c.current = t → c.weight < m → Ended src d good c (r c)

/-- So ends `r` at any token. -/
def Takes (src : String) (d m : Nat) (r : Reader α) (good : α → Prop) : Prop :=
  ∀ t, TakesAt src t d m r good

/-- `r` reads on, or fails in the text. -/
def Eats (src : String) (m : Nat) (r : Reader α) : Prop := Takes src 1 m r fun _ => True

/-- `r` reads on or stays in its place, or fails in the text. -/
def Stays (src : String) (m : Nat) (r : Reader α) : Prop := Takes src 0 m r fun _ => True

/-! ### Steps -/

theorem TakesAt.mono {r : Reader α} {good' : α → Prop} (h : TakesAt src t e k r good)
    (least : d ≤ e) (enough : m ≤ k) (better : ∀ a, good a → good' a) :
    TakesAt src t d m r good' := by
  intro c on here room
  obtain ⟨gave, failed⟩ := h c on here (by omega)
  refine ⟨fun a c' run => ?_, failed⟩
  obtain ⟨on, less, value⟩ := gave a c' run
  exact ⟨on, by omega, better a value⟩

theorem TakesAt.bind {r : Reader α} {f : α → Reader β} (first : TakesAt src t d k r good)
    (enough : m ≤ k) (rest : ∀ a, good a → Takes src (e - d) (m - d) (f a) good') :
    TakesAt src t e m (r >>= f) good' := by
  intro c on here room
  have start := first c on here (by omega)
  have next {a : α} {c' : Cursor} (run : r c = .ok (a, c')) :
      Ended src e good' c (f a c') := by
    obtain ⟨on', less, value⟩ := start.gave a c' run
    have later := rest a value c'.current c' on' rfl (by omega)
    refine ⟨fun b c'' run => ?_, later.failed⟩
    obtain ⟨on'', less', value'⟩ := later.gave b c'' run
    exact ⟨on'', by omega, value'⟩
  refine ⟨fun b c'' run => ?_, fun failure run => ?_⟩
  · obtain ⟨a, c', run, run'⟩ := bind_ok run
    exact (next run).gave b c'' run'
  · rcases bind_error run with run | ⟨a, c', run, run'⟩
    · exact start.failed failure run
    · exact (next run).failed failure run'

theorem TakesAt.pure {a : α} (value : good a) : TakesAt src t 0 m (Pure.pure a) good := by
  refine fun c on _ _ => ⟨fun b c' run => ?_, fun failure run => ?_⟩
  · obtain ⟨rfl, rfl⟩ := pure_ok run
    exact ⟨on, Nat.le_refl _, value⟩
  · cases run

section

variable {f : α → Reader β}

theorem TakesAt.current {f : Token → Reader β}
    (next : t.Readable src → TakesAt src t d m (f t) good') :
    TakesAt src t d m (Reader.current >>= f) good' := by
  intro c on here room
  subst here
  exact next on.current c on rfl room

theorem TakesAt.pos {f : Pos → Reader β}
    (next : t.pos.Readable src → TakesAt src t d m (f t.pos) good') :
    TakesAt src t d m (Reader.pos >>= f) good' := by
  intro c on here room
  subst here
  exact next on.current.start c on rfl room

theorem TakesAt.nextKind {f : Token.Kind → Reader β}
    (next : ∀ kind, TakesAt src t d m (f kind) good') :
    TakesAt src t d m (Reader.nextKind >>= f) good' :=
  fun c on here room => next c.nextKind c on here room

theorem TakesAt.spanFrom {start : Pos} {f : Span → Reader β}
    (next : ∀ stop, TakesAt src t d m (f ⟨start, stop⟩) good') :
    TakesAt src t d m (Reader.spanFrom start >>= f) good' :=
  fun c on here room => next c.lastEnd c on here room

theorem TakesAt.check {x : Token.Kind} {f : Bool → Reader β}
    (same : t.kind = x → TakesAt src t d m (f true) good')
    (other : t.kind ≠ x → TakesAt src t d m (f false) good') :
    TakesAt src t d m (Reader.check x >>= f) good' := by
  intro c on here room
  show Ended src d good' c (f (c.current.kind == x) c)
  rw [here]
  by_cases kind : t.kind = x
  · rw [beq_iff_eq.mpr kind]
    exact same kind c on here room
  · rw [beq_eq_false_iff_ne.mpr kind]
    exact other kind c on here room

end

theorem TakesAt.failAt {p : Pos} {cause : ParseError.Cause} (place : p.Readable src) :
    TakesAt src t d m (Reader.failAt p cause : Reader α) good := by
  refine fun c _ _ _ => ⟨fun a c' run => ?_, fun failure run => ?_⟩
  · exact absurd run failAt_ok
  · cases run
    exact place

theorem unexpected_takes {x : Expectation} :
    Takes src d m (unexpected x : Reader α) good :=
  fun _ => .current fun here => .failAt here.start

theorem unclosed_takes {opener : Token} : Takes src d m (unclosed opener : Reader α) good :=
  fun _ => .current fun here => .failAt here.start

theorem Takes.never {r : Reader α} {f : α → Reader β} (h : Takes src d m r fun _ => False) :
    Takes src d m (r >>= f) good' :=
  fun t => (h t).bind (Nat.le_refl m) fun _ none => none.elim

theorem TakesAt.map {r : Reader α} {f : α → β} (h : TakesAt src t d m r good)
    (better : ∀ a, good a → good' (f a)) : TakesAt src t d m (f <$> r) good' := by
  rw [map_eq_pure_bind]
  intro c on here room
  refine (h.bind (Nat.le_refl m) fun a value t' => ?_) c on here room
  rw [Nat.sub_self]
  exact .pure (better a value)

theorem Eats.mono {r : Reader α} (h : Eats src k r) (enough : m ≤ k) : Eats src m r :=
  fun t => (h t).mono (Nat.le_refl 1) enough fun _ => id

theorem Stays.mono {r : Reader α} (h : Stays src k r) (enough : m ≤ k) : Stays src m r :=
  fun t => (h t).mono (Nat.le_refl 0) enough fun _ => id

theorem Eats.stays {r : Reader α} (h : Eats src m r) : Stays src m r :=
  fun t => (h t).mono (Nat.zero_le 1) (Nat.le_refl m) fun _ => id

theorem Stays.discard {r : Reader α} (h : Stays src m r) : Stays src m (discard r) :=
  fun t => (h t).map fun _ _ => trivial

theorem Eats.discard {r : Reader α} (h : Eats src m r) : Eats src m (discard r) :=
  fun t => (h t).map fun _ _ => trivial

theorem advance_ended {c : Cursor} (on : c.On src) :
    Ended src (if c.current.kind = .eof then 0 else 1) (fun _ => True) c (advance c) := by
  let behind : Cursor := { c with rest := c.rest.tail, lastEnd := c.current.stop }
  have tokens : ∀ t ∈ behind.rest, t.Readable src :=
    fun t member => on.tokens t (List.mem_of_mem_tail member)
  have marks : ∀ t ∈ behind.rest, t.kind ≠ .eof :=
    fun t member => on.marks t (List.mem_of_mem_tail member)
  have less : behind.weight + (if c.current.kind = .eof then 0 else 1) ≤ c.weight := by
    split
    · cases rest : c.rest with
      | nil =>
        have none : behind.rest = [] := congrArg List.tail rest
        rw [Cursor.weight_nil none]
        omega
      | cons t ts =>
        have same : behind.weight = Cursor.weight { c with rest := ts } :=
          congrArg (fun rest => Cursor.weight { c with rest }) (congrArg List.tail rest)
        rw [same, Cursor.weight_cons rest]
        omega
    · next token =>
      have same : behind.weight = Cursor.weight { c with rest := c.rest.tail } := rfl
      rw [same, Cursor.weight_cons (Cursor.rest_of_kind token)]
      omega
  have checked : advance c = behind.checked >>= fun c' => .ok ((), c') := by
    show (liftM behind.checked >>= fun c' => (set c' : Reader Unit)) c = _
    cases behind.checked <;> rfl
  rw [checked]
  refine ⟨fun u c' run => ?_, fun failure run => ?_⟩
  · obtain ⟨_, run, same⟩ := except_bind_ok run
    cases same
    obtain ⟨rfl, ends⟩ := Cursor.checked_ok run
    exact ⟨⟨on.stop, on.along.tail, tokens, marks, ends⟩, less, trivial⟩
  · rcases except_bind_error run with run | ⟨_, _, run⟩
    · obtain ⟨e, stop, rfl⟩ := Cursor.checked_error run
      exact on.stop.symm.trans stop
    · cases run

theorem advance_stays : Stays src m advance := fun _ c on _ _ => by
  obtain ⟨gave, failed⟩ := advance_ended on
  refine ⟨fun u c' run => ?_, failed⟩
  obtain ⟨on', less, -⟩ := gave u c' run
  exact ⟨on', by omega, trivial⟩

theorem TakesAt.advance (token : t.kind ≠ .eof) : TakesAt src t 1 m advance fun _ => True := by
  intro c on here _
  have ended := advance_ended on
  rwa [here, if_neg token] at ended

/-! ### Small readers -/

/-- A reader that says whether it has read something. -/
structure Leads (src : String) (lead : Reader Bool) : Prop where
  bind : ∀ {β : Type} {t : Token} {d m : Nat} {f : Bool → Reader β} {good : β → Prop},
    Takes src (d - 1) (m - 1) (f true) good → TakesAt src t d m (f false) good →
      TakesAt src t d m (lead >>= f) good

theorem accept_leads {x : Token.Kind} (token : x ≠ .eof) : Leads src (accept x) := by
  refine ⟨fun {β t d m f good} yes no => ?_⟩
  unfold accept
  rw [bind_assoc]
  refine .check (fun same => ?_) fun _ => ?_
  · rw [if_pos rfl, bind_assoc]
    exact (TakesAt.advance (same ▸ token)).bind (Nat.le_refl m) fun _ _ => yes
  · exact no

theorem acceptOp_leads {o : Operator} : Leads src (acceptOp o) :=
  @accept_leads src (.op o) nofun

theorem accept_stays {x : Token.Kind} (token : x ≠ .eof) : Stays src m (accept x) := fun t => by
  rw [← bind_pure (accept x)]
  exact (accept_leads token).bind (fun _ => .pure trivial) (.pure trivial)

theorem acceptOp_stays {o : Operator} : Stays src m (acceptOp o) :=
  @accept_stays src m (.op o) nofun

theorem acceptWord_leads {w : String} : Leads src (acceptWord w) := by
  refine ⟨fun {β t d m f good} yes no => ?_⟩
  unfold acceptWord
  rw [bind_assoc]
  refine .current fun _ => ?_
  split
  · next same =>
    have name := eq_of_beq (Bool.and_eq_true_iff.mp same).1
    rw [bind_assoc]
    exact (TakesAt.advance (name ▸ nofun)).bind (Nat.le_refl m) fun _ _ => yes
  · exact no

theorem expect_eats {x : Token.Kind} (token : x ≠ .eof) : Eats src m (expect x) := by
  refine fun t => .current fun _ => ?_
  split
  · next same =>
    refine (TakesAt.advance (eq_of_beq same ▸ token)).bind (Nat.le_refl m) fun _ _ _ => ?_
    exact .pure trivial
  · exact unexpected_takes t

theorem expectOp_eats {o : Operator} : Eats src m (expectOp o) := expect_eats nofun

theorem expectWord_eats {w : String} : Eats src m (expectWord w) :=
  fun t => acceptWord_leads.bind (fun _ => .pure trivial) (unexpected_takes t)

theorem name_eats : Eats src m name := by
  refine fun t => .current fun here => ?_
  split
  · next same =>
    refine (TakesAt.advance (eq_of_beq same ▸ nofun)).bind (Nat.le_refl m) fun _ _ _ => ?_
    exact .pure trivial
  · exact .failAt here.start

theorem close_eats {o : Operator} {opener : Token} : Eats src m (close o opener) := by
  refine fun t => .check (fun _ => ?_) fun _ => ?_
  · exact Takes.never unclosed_takes t
  · exact expectOp_eats.discard t

theorem after?_stays {lead : Reader Bool} {item : Reader α} (leads : Leads src lead)
    (stays : Stays src (m - 1) item) : Stays src m (after? lead item) :=
  fun _ => leads.bind (fun t => (stays t).map fun _ _ => trivial) (.pure trivial)

theorem commaListWith_eats {opener : Token} {closer : Operator} {item : Reader α}
    {rest : Reader (List α)} (eats : Eats src m item) (more : Eats src (m - 1) rest) :
    Eats src m (commaListWith opener closer item rest) := by
  refine fun t => .check (fun _ => ?_) fun _ => .check (fun _ => ?_) fun _ => ?_
  · exact (close_eats t).bind (Nat.le_refl m) fun _ _ _ => .pure trivial
  · exact Takes.never unclosed_takes t
  · refine (eats t).bind (Nat.le_refl m) fun x _ t => acceptOp_leads.bind (fun t => ?_) ?_
    · exact (more.stays t).bind (by omega) fun _ _ _ => .pure trivial
    · exact (close_eats.stays t).bind (Nat.le_refl _) fun _ _ _ => .pure trivial

theorem commaList_eats {opener : Token} {closer : Operator} {item : Reader α} {n : Nat}
    (eats : Eats src m item) (steps : m ≤ n) : Eats src m (commaList opener closer item n) := by
  induction n generalizing m with
  | zero => exact fun _ _ _ _ room => absurd room (by omega)
  | succ n ih => exact commaListWith_eats eats (ih (eats.mono (by omega)) (by omega))

theorem bracedListWith_eats {opener : Token} {item : Reader α} {rest : Reader (List α)}
    (eats : Eats src m item) (more : Eats src (m - 1) rest) :
    Eats src m (bracedListWith opener item rest) := by
  refine fun t => .check (fun same => ?_) fun _ => .check (fun _ => ?_) fun _ => ?_
  · exact (TakesAt.advance (same ▸ nofun)).bind (Nat.le_refl m) fun _ _ _ => .pure trivial
  · exact Takes.never unclosed_takes t
  · refine (eats t).bind (Nat.le_refl m) fun x _ t => ?_
    exact (more.stays t).bind (Nat.le_refl _) fun _ _ _ => .pure trivial

theorem bracedList_eats {opener : Token} {item : Reader α} {n : Nat}
    (eats : Eats src m item) (steps : m ≤ n) : Eats src m (bracedList opener item n) := by
  induction n generalizing m with
  | zero => exact fun _ _ _ _ room => absurd room (by omega)
  | succ n ih => exact bracedListWith_eats eats (ih (eats.mono (by omega)) (by omega))

/-- A reader that reads on if it gives something and stays in its place if not. -/
structure StepsAt (src : String) (t : Token) (m : Nat) (r : Reader (Option α)) : Prop where
  bind : ∀ {β : Type} {d k : Nat} {f : Option α → Reader β} {good : β → Prop}, k ≤ m →
    (∀ x, Takes src (d - 1) (k - 1) (f (some x)) good) → TakesAt src t d k (f none) good →
      TakesAt src t d k (r >>= f) good

theorem StepsAt.some {r : Reader (Option α)} (h : TakesAt src t 1 m r fun a => a.isSome = true) :
    StepsAt src t m r := by
  refine ⟨fun {β d k f good} enough more _ => ?_⟩
  refine h.bind enough fun a value => ?_
  obtain ⟨x, rfl⟩ := Option.isSome_iff_exists.mp value
  exact more x

theorem StepsAt.none : StepsAt src t m (Pure.pure Option.none : Reader (Option α)) :=
  ⟨fun _ _ stop => stop⟩

theorem StepsAt.lead {lead : Reader Bool} {r : Reader (Option α)} (leads : Leads src lead)
    (some : Takes src 0 (m - 1) r fun a => a.isSome = true) :
    StepsAt src t m (lead >>= fun b => if b then r else Pure.pure Option.none) := by
  refine ⟨fun {β d k f good} enough more stop => ?_⟩
  rw [bind_assoc]
  refine leads.bind (fun t => ?_) ?_
  · refine (some t).bind (by omega) fun a value => ?_
    obtain ⟨x, rfl⟩ := Option.isSome_iff_exists.mp value
    exact more x
  · exact stop

theorem StepsAt.current {f : Token → Reader (Option α)}
    (next : t.Readable src → StepsAt src t m (f t)) :
    StepsAt src t m (Reader.current >>= f) := by
  refine ⟨fun {β d k f' good} enough more stop => ?_⟩
  rw [bind_assoc]
  exact .current fun place => (next place).bind enough more stop

theorem StepsAt.check {x : Token.Kind} {f : Bool → Reader (Option α)}
    (same : t.kind = x → StepsAt src t m (f true))
    (other : t.kind ≠ x → StepsAt src t m (f false)) :
    StepsAt src t m (Reader.check x >>= f) := by
  refine ⟨fun {β d k f' good} enough more stop => ?_⟩
  rw [bind_assoc]
  exact .check (fun kind => (same kind).bind enough more stop)
    fun kind => (other kind).bind enough more stop

theorem StepsAt.nextKind {f : Token.Kind → Reader (Option α)}
    (next : ∀ kind, StepsAt src t m (f kind)) : StepsAt src t m (Reader.nextKind >>= f) := by
  refine ⟨fun {β d k f' good} enough more stop => ?_⟩
  rw [bind_assoc]
  exact .nextKind fun kind => (next kind).bind enough more stop

theorem StepsAt.mono {r : Reader (Option α)} (h : StepsAt src t k r) (enough : m ≤ k) :
    StepsAt src t m r :=
  ⟨fun enough' more stop => h.bind (Nat.le_trans enough' enough) more stop⟩

theorem iterateWith_stays {step : α → Reader (Option α)} {again : α → Reader α} {x : α}
    (once : ∀ x t, StepsAt src t m (step x)) (more : ∀ y, Stays src (m - 1) (again y)) :
    Stays src m (iterateWith step again x) :=
  fun t => (once x t).bind (Nat.le_refl m) more (.pure trivial)

theorem iterate_stays {step : α → Reader (Option α)} {n : Nat} {x : α}
    (once : ∀ x t, StepsAt src t m (step x)) (steps : m ≤ n) : Stays src m (iterate step n x) := by
  induction n generalizing m x with
  | zero => exact fun _ _ _ _ room => absurd room (by omega)
  | succ n ih =>
    refine iterateWith_stays once fun y => ?_
    exact ih (fun x t => (once x t).mono (Nat.sub_le m 1)) (by omega)

theorem manyWith_stays {item : Reader (Option α)} {rest : Reader (List α)}
    (once : ∀ t, StepsAt src t m item) (more : Stays src (m - 1) rest) :
    Stays src m (manyWith item rest) := by
  refine fun t => (once t).bind (Nat.le_refl m) (fun x t => ?_) (.pure trivial)
  exact (more t).bind (Nat.le_refl _) fun _ _ _ => .pure trivial

theorem many_stays {item : Reader (Option α)} {n : Nat} (once : ∀ t, StepsAt src t m item)
    (steps : m ≤ n) : Stays src m (many item n) := by
  induction n generalizing m with
  | zero => exact fun _ _ _ _ room => absurd room (by omega)
  | succ n ih =>
    exact manyWith_stays once (ih (fun t => (once t).mono (Nat.sub_le m 1)) (by omega))

theorem dotName_steps {acc : String} : StepsAt src t m (dotName acc) := by
  refine .check (fun same => .nextKind fun kind => ?_) fun _ => ?_
  split
  · refine .some <| (TakesAt.advance (same ▸ nofun)).bind (Nat.le_refl _) fun _ _ t => ?_
    exact (name_eats.stays t).bind (Nat.le_refl _) fun _ _ _ => .pure rfl
  · exact .none
  · exact .nextKind fun _ => .none

theorem dottedName_eats {n : Nat} (steps : m ≤ n + 1) : Eats src m (dottedName n) :=
  fun t => (name_eats t).bind (Nat.le_refl m) fun _ _ =>
    iterate_stays (fun _ _ => dotName_steps) (by omega)

/-! ### Types -/

theorem splitOff_takes {o : Operator} {left : Token} (here : t.kind = .op o)
    (fits : left.Readable src) (sign : left.kind = .op .greater ∨ left.kind = .op .assign)
    (place : left.pos = t.pos.shift 1) (wide : o.symbol.length = 2)
    (narrow : left.literal.length = 1) :
    TakesAt src t 1 m (closeTemplate.splitOff t left) fun _ => True := by
  refine fun c on same _ => ⟨fun u c' run => ?_, fun failure run => ?_⟩
  · have rest := Cursor.rest_of_kind (c := c) (by rw [same, here]; nofun)
    have literal := (on.tokens _ (rest ▸ List.mem_cons_self)).symbol o (same ▸ here)
    have along : Cursor.Along src (left :: c.rest.tail) := by
      have whole := on.along
      rw [rest, same] at whole
      rw [same] at literal
      cases whole with
      | whole tail => exact .second tail sign place (literal ▸ wide) narrow
      | second _ _ _ _ short =>
        rw [literal, wide] at short
        cases short
    obtain rfl := modify_ok run
    have mark : left.kind ≠ .eof := by rcases sign with kind | kind <;> rw [kind] <;> nofun
    refine ⟨⟨on.stop, along, List.forall_mem_cons.mpr ⟨fits, fun u member => ?_⟩,
      List.forall_mem_cons.mpr ⟨mark, fun u member => ?_⟩, fun none => nomatch none⟩, ?_, trivial⟩
    · exact on.tokens u (List.mem_of_mem_tail member)
    · exact on.marks u (List.mem_of_mem_tail member)
    · rw [Cursor.weight_cons rest, literal, Cursor.weight_cons rfl]
      have same : Cursor.weight { c with rest := c.rest.tail, lastEnd := t.pos.shift 1 } =
        Cursor.weight { c with rest := c.rest.tail } := rfl
      dsimp only at same ⊢
      omega
  · cases run

theorem closeTemplate_eats : Eats src m closeTemplate := by
  refine fun t => .current fun here => ?_
  split
  · next same => exact .advance (same ▸ nofun)
  · next same =>
    exact splitOff_takes same ⟨here.second _ same (by decide), by rintro _ ⟨⟩; rfl,
      by rintro _ ⟨⟩ wide; exact absurd wide (by decide)⟩ (.inl rfl) rfl (by decide)
      (show ">".length = 1 by decide)
  · next same =>
    exact splitOff_takes same ⟨here.second _ same (by decide), by rintro _ ⟨⟩; rfl,
      by rintro _ ⟨⟩ wide; exact absurd wide (by decide)⟩ (.inr rfl) rfl (by decide)
      (show "=".length = 1 by decide)
  · exact unexpected_takes t

theorem templateArg_eats {type : Reader TypeExpr} (eats : Eats src m type) :
    Eats src m (templateArg type) := by
  refine fun t => .current fun _ => ?_
  split
  · next number =>
    refine (TakesAt.advance (eq_of_beq number ▸ nofun)).bind (Nat.le_refl m) fun _ _ t => ?_
    exact .spanFrom fun _ => .pure trivial
  · exact eats t

theorem templateArgsWith_eats {opener : Token} {type : Reader TypeExpr}
    {rest : Reader (List TypeExpr)} (eats : Eats src m type) (more : Eats src (m - 1) rest) :
    Eats src m (templateArgsWith opener type rest) := by
  refine fun t => .check (fun _ => ?_) fun _ => ?_
  · exact Takes.never unclosed_takes t
  · refine (templateArg_eats eats t).bind (Nat.le_refl m) fun x _ t => ?_
    refine acceptOp_leads.bind (fun t => ?_) ?_
    · exact (more.stays t).bind (by omega) fun _ _ _ => .pure trivial
    · exact (closeTemplate_eats.stays t).bind (Nat.le_refl _) fun _ _ _ => .pure trivial

theorem templateArgs_eats {opener : Token} {type : Reader TypeExpr} {n : Nat}
    (eats : Eats src m type) (steps : m ≤ n) : Eats src m (templateArgs opener type n) := by
  induction n generalizing m with
  | zero => exact fun _ _ _ _ room => absurd room (by omega)
  | succ n ih => exact templateArgsWith_eats eats (ih (eats.mono (by omega)) (by omega))

theorem nameAndArgs_eats {type : Reader TypeExpr} {n : Nat} (eats : Eats src (m - 1) type)
    (steps : m ≤ n + 1) : Eats src m (nameAndArgs n type) := by
  refine fun t => (dottedName_eats steps t).bind (Nat.le_refl m) fun x _ opener => ?_
  refine .current fun _ => ?_
  split
  · refine (advance_stays opener).bind (Nat.le_refl _) fun _ _ t => ?_
    have args : Eats src (m - 1) (templateArgs opener type n) :=
      templateArgs_eats eats (by omega)
    exact (args.stays t).bind (Nat.le_refl _) fun _ _ _ => .pure trivial
  · exact .pure trivial

theorem star_steps {k : Nat} : StepsAt src t m (star k) :=
  .lead acceptOp_leads fun _ => .pure rfl

theorem stars_stays {n : Nat} (steps : m ≤ n) : Stays src m (stars n) :=
  iterate_stays (fun _ _ => star_steps) steps

theorem typeWith_eats {n : Nat} {inner : Reader TypeExpr} (eats : Eats src (m - 1) inner)
    (steps : m ≤ n + 1) : Eats src m (typeWith n inner) := by
  have list {opener : Token} : Stays src (m - 1) (commaList opener .closeParen inner n) :=
    (commaList_eats eats (by omega)).stays
  have stars : Stays src (m - 1) (stars n) := stars_stays (by omega)
  refine fun t => .pos fun _ => .current fun _ => ?_
  split
  · next same =>
    refine (TakesAt.advance (same ▸ nofun)).bind (Nat.le_refl _) fun _ _ t => ?_
    refine (list t).bind (Nat.le_refl _) fun es _ t => ?_
    refine (stars t).bind (Nat.le_refl _) fun k _ t => ?_
    exact .spanFrom fun _ => .pure trivial
  · next same =>
    refine (TakesAt.advance (same ▸ nofun)).bind (Nat.le_refl _) fun _ _ t => ?_
    refine (expectOp_eats.stays t).bind (Nat.le_refl _) fun opener _ t => ?_
    refine (list t).bind (Nat.le_refl _) fun ps _ t => ?_
    refine (after?_stays acceptOp_leads (eats.stays.mono (Nat.sub_le _ _)) t).bind (Nat.le_refl _)
      fun result _ t => ?_
    refine (stars t).bind (Nat.le_refl _) fun k _ t => ?_
    exact .spanFrom fun _ => .pure trivial
  · refine (nameAndArgs_eats eats steps t).bind (Nat.le_refl _) fun x _ t => ?_
    refine (stars t).bind (Nat.le_refl _) fun k _ t => ?_
    exact .spanFrom fun _ => .pure trivial

theorem type_eats (n : Nat) : Eats src n (type n) := by
  induction n with
  | zero => exact fun _ _ _ _ room => absurd room (by omega)
  | succ n ih => exact typeWith_eats ih (Nat.le_refl _)

theorem typeName_eats (n : Nat) : Eats src n (typeName n) := by
  refine fun t => .pos fun _ => ?_
  have eats : Eats src (n - 1) (type n) := (type_eats n).mono (Nat.sub_le n 1)
  refine (nameAndArgs_eats eats (Nat.le_succ n) t).bind (Nat.le_refl _) fun x _ t => ?_
  exact .spanFrom fun _ => .pure trivial

/-! ### Expressions -/

section

variable {n : Nat} {expr : Reader Expr}

theorem args_eats (eats : Eats src (m - 1) expr) (steps : m ≤ n) : Eats src m (args n expr) := by
  refine fun t => (expectOp_eats t).bind (Nat.le_refl m) fun opener _ t => ?_
  exact (commaList_eats eats (by omega)).stays t

theorem argsHere_stays (eats : Eats src (m - 1) expr) (steps : m ≤ n) :
    Stays src m (argsHere n expr) := by
  refine fun t => .check (fun _ => ?_) fun _ => .pure trivial
  exact (args_eats eats steps).stays t

theorem moreElemsWith_stays {rest : Reader (List Expr)} (eats : Eats src (m - 1) expr)
    (more : Stays src (m - 1) rest) : Stays src m (moreElemsWith expr rest) := by
  refine fun t => acceptOp_leads.bind (fun t => ?_) (.pure trivial)
  refine .check (fun _ => .pure trivial) fun _ => ?_
  refine (eats.stays t).bind (Nat.le_refl _) fun x _ t => ?_
  exact (more t).bind (Nat.le_refl _) fun _ _ _ => .pure trivial

theorem moreElems_stays (eats : Eats src (m - 1) expr) (steps : m ≤ k) :
    Stays src m (moreElems expr k) := by
  induction k generalizing m with
  | zero => exact fun _ _ _ _ room => absurd room (by omega)
  | succ k ih => exact moreElemsWith_stays eats (ih (eats.mono (by omega)) (by omega))

theorem literalOf_takes {kind : LiteralKind} (token : t.kind ≠ .eof) :
    TakesAt src t 1 m (literalOf t kind) fun _ => True :=
  (TakesAt.advance token).bind (Nat.le_refl m) fun _ _ _ => .spanFrom fun _ => .pure trivial

theorem primary_eats (eats : Eats src (m - 1) expr) (steps : m ≤ n) :
    Eats src m (primary n expr) := by
  refine fun t => .current fun _ => ?_
  split
  · next same => exact literalOf_takes (same ▸ nofun)
  · next same => exact literalOf_takes (same ▸ nofun)
  · next same => exact literalOf_takes (same ▸ nofun)
  · next same => exact literalOf_takes (same ▸ nofun)
  · next same => exact literalOf_takes (same ▸ nofun)
  · next same => exact literalOf_takes (same ▸ nofun)
  · next same =>
    refine (TakesAt.advance (same ▸ nofun)).bind (Nat.le_refl _) fun _ _ t => ?_
    exact .spanFrom fun _ => .pure trivial
  · next same =>
    refine (TakesAt.advance (same ▸ nofun)).bind (Nat.le_refl _) fun _ _ t => ?_
    exact .spanFrom fun _ => .pure trivial
  · next same =>
    refine (TakesAt.advance (same ▸ nofun)).bind (Nat.le_refl _) fun _ _ t => ?_
    refine ((typeName_eats n).stays t).bind (by omega) fun type _ t => ?_
    have args : Stays src (m - 1 - 0) (argsHere n expr) :=
      argsHere_stays (eats.mono (by omega)) (by omega)
    refine (args t).bind (Nat.le_refl _) fun xs _ t => ?_
    exact .spanFrom fun _ => .pure trivial
  · next same =>
    refine (TakesAt.advance (same ▸ nofun)).bind (Nat.le_refl _) fun _ _ t => ?_
    refine (eats.stays t).bind (Nat.le_refl _) fun first _ t => ?_
    refine .check (fun _ => ?_) fun _ => ?_
    · have elems : Stays src (m - 1 - 0) (moreElems expr n) :=
        moreElems_stays (eats.mono (by omega)) (by omega)
      refine (elems t).bind (Nat.le_refl _) fun more _ t => ?_
      refine (close_eats.stays t).bind (Nat.le_refl _) fun _ _ _ => ?_
      exact .spanFrom fun _ => .pure trivial
    · refine (close_eats.stays t).bind (Nat.le_refl _) fun _ _ _ => ?_
      exact .spanFrom fun _ => .pure trivial
  · exact unexpected_takes t

theorem memberName_eats : Eats src m memberName := by
  refine fun t => .current fun _ => ?_
  split
  · next reserved =>
    have token : t.kind ≠ .eof := fun same => by simp [same, Token.Kind.isReserved] at reserved
    exact (TakesAt.advance token).bind (Nat.le_refl m) fun _ _ _ => .pure trivial
  · exact name_eats t

theorem afterDot_eats {start : Pos} {x : Expr} : Eats src m (afterDot start x) := by
  refine fun t => .current fun here => ?_
  split
  · next number =>
    split
    · refine (TakesAt.advance (eq_of_beq number ▸ nofun)).bind (Nat.le_refl m) fun _ _ _ => ?_
      exact .spanFrom fun _ => .pure trivial
    · exact .failAt here.start
  · refine .spanFrom fun _ => ?_
    exact (memberName_eats t).bind (Nat.le_refl m) fun _ _ _ => .pure trivial

theorem member_takes {start : Pos} {x : Expr} {accessor : Accessor} (token : t.kind ≠ .eof) :
    TakesAt src t 1 m (member start x accessor) fun _ => True := by
  refine (TakesAt.advance token).bind (Nat.le_refl m) fun _ _ t => .spanFrom fun _ => ?_
  exact (memberName_eats.stays t).bind (Nat.le_refl _) fun _ _ _ => .pure trivial

theorem castKind_stays : Stays src m castKind := by
  refine fun t => (@accept_leads src (.modifier .static) nofun).bind (fun _ => .pure trivial) ?_
  refine acceptWord_leads.bind (fun _ => .pure trivial) ?_
  exact acceptWord_leads.bind (fun _ => .pure trivial) (.pure trivial)

theorem suffix?_steps {x : Expr} (eats : Eats src (m - 1) expr) (steps : m ≤ n) :
    StepsAt src t m (suffix? n expr x) := by
  refine .current fun _ => ?_
  split
  · refine .some <| (args_eats eats steps t).bind (Nat.le_refl _) fun xs _ _ => ?_
    exact .spanFrom fun _ => .pure rfl
  · next same =>
    refine .some <| (TakesAt.advance (same ▸ nofun)).bind (Nat.le_refl _) fun _ _ t => ?_
    refine (eats.stays t).bind (Nat.le_refl _) fun i _ t => ?_
    refine (close_eats.stays t).bind (Nat.le_refl _) fun _ _ _ => ?_
    exact .spanFrom fun _ => .pure rfl
  · next same =>
    refine .some <| (TakesAt.advance (same ▸ nofun)).bind (Nat.le_refl _) fun _ _ t => ?_
    exact (afterDot_eats.stays t).map fun _ _ => rfl
  · next same => exact .some <| (member_takes (same ▸ nofun)).map fun _ _ => rfl
  · next same => exact .some <| (member_takes (same ▸ nofun)).map fun _ _ => rfl
  · next same =>
    refine .some <| (TakesAt.advance (same ▸ nofun)).bind (Nat.le_refl _) fun _ _ t => ?_
    exact .spanFrom fun _ => .pure rfl
  · next same =>
    refine .some <| (TakesAt.advance (same ▸ nofun)).bind (Nat.le_refl _) fun _ _ t => ?_
    exact .spanFrom fun _ => .pure rfl
  · next same =>
    refine .some <| (TakesAt.advance (same ▸ nofun)).bind (Nat.le_refl _) fun _ _ t => ?_
    refine (castKind_stays t).bind (Nat.le_refl _) fun kind _ t => ?_
    refine ((type_eats n).stays t).bind (by omega) fun target _ t => ?_
    exact .spanFrom fun _ => .pure rfl
  · exact .none

theorem operandWith_eats {inner : Reader Expr} (eats : Eats src (m - 1) expr) (steps : m ≤ n)
    (more : Eats src (m - 1) inner) : Eats src m (operandWith n expr inner) := by
  have plain {t : Token} : TakesAt src t 1 m (primary n expr >>= iterate (suffix? n expr) n)
      fun _ => True := by
    refine (primary_eats eats steps t).bind (Nat.le_refl _) fun x _ => ?_
    exact iterate_stays (fun x t => suffix?_steps (eats.mono (by omega)) (by omega)) (by omega)
  refine fun t => .current fun _ => ?_
  split
  · next same =>
    split
    · refine (TakesAt.advance (same ▸ nofun)).bind (Nat.le_refl _) fun _ _ t => ?_
      refine (more.stays t).bind (Nat.le_refl _) fun x _ t => ?_
      exact .spanFrom fun _ => .pure trivial
    · exact plain
  · next same =>
    refine (TakesAt.advance (same ▸ nofun)).bind (Nat.le_refl _) fun _ _ t => ?_
    refine (more.stays t).bind (Nat.le_refl _) fun x _ t => ?_
    exact .spanFrom fun _ => .pure trivial
  · exact plain

theorem operand_eats (eats : Eats src (m - 1) expr) (steps : m ≤ n) (enough : m ≤ k) :
    Eats src m (operand n expr k) := by
  induction k generalizing m with
  | zero => exact fun _ _ _ _ room => absurd room (by omega)
  | succ k ih =>
    exact operandWith_eats eats steps (ih (eats.mono (by omega)) (by omega) (by omega))

end

theorem infix?_steps {table : Table} {expr : Int → Reader Expr} {start : Pos} {least : Int}
    {left : Expr} (eats : ∀ least, Eats src (m - 1) (expr least)) :
    StepsAt src t m (infix? table expr start least left) := by
  refine .current fun _ => ?_
  split
  · exact .none
  · next o b found =>
    have token : t.kind ≠ .eof := fun same => by simp [bindingOf?, same] at found
    split
    · exact .none
    · refine .some <| (TakesAt.advance token).bind (Nat.le_refl _) fun _ _ t => ?_
      split
      · refine ((eats _).stays t).bind (Nat.le_refl _) fun yes _ t => ?_
        refine (expectOp_eats.discard.stays t).bind (Nat.le_refl _) fun _ _ t => ?_
        refine ((eats _).stays.mono (by omega) t).bind (Nat.le_refl _) fun no _ t => ?_
        exact .spanFrom fun _ => .pure rfl
      · refine ((eats _).stays t).bind (Nat.le_refl _) fun right _ t => ?_
        exact .spanFrom fun _ => .pure rfl
      · refine ((eats _).stays t).bind (Nat.le_refl _) fun right _ t => ?_
        exact .spanFrom fun _ => .pure rfl

theorem expressionWith_eats {table : Table} {n : Nat} {expr : Int → Reader Expr} {least : Int}
    (eats : ∀ least, Eats src (m - 1) (expr least)) (steps : m ≤ n) :
    Eats src m (expressionWith table n expr least) := by
  refine fun t => .pos fun _ => ?_
  have operand : Eats src m (operand n (expr 1) n) := operand_eats (eats 1) steps steps
  refine (operand t).bind (Nat.le_refl _) fun left _ => ?_
  refine iterate_stays (fun left t => infix?_steps fun least => (eats least).mono ?_) ?_
  · omega
  · omega

theorem expressionFrom_eats {table : Table} (n : Nat) (least : Int) :
    Eats src (n - 1) (expressionFrom table n least) := by
  induction n generalizing least with
  | zero => exact fun _ _ _ _ room => absurd room (by omega)
  | succ n ih => exact expressionWith_eats ih (Nat.le_refl n)

theorem expression_eats {table : Table} (n : Nat) : Eats src (n - 1) (expression table n) :=
  expressionFrom_eats n 1

end Reader

end TastyLang
