import TastyLang.Compilation.Basic
import TastyLang.Proofs.Evaluation
import TastyLang.Proofs.Reading.Progress
import TastyLang.Reading.Declarations

/-!
# What is wrong with a text

Reading a file ends in an error of the text: at a token, or in the lexical error that the text has
(`File.read_faults`). Steps never run out, and no lexical error is passed over.
-/

namespace TastyLang

namespace Reader

variable {α : Type} {src : String} {t : Token} {m k : Nat}

/-! ### Statements -/

theorem modifier_steps {ms : Modifiers} : StepsAt src t m (modifier ms) := by
  refine .current fun _ => ?_
  split
  · next same =>
    exact .some <| (TakesAt.advance (same ▸ nofun)).bind (Nat.le_refl _) fun _ _ _ => .pure rfl
  · exact .none

theorem modifiers_stays {n : Nat} (steps : m ≤ n) : Stays src m (modifiers n) :=
  iterate_stays (fun _ _ => modifier_steps) steps

theorem ofToken?_kind {t : Token} {s : Storage} (h : Storage.ofToken? t = some s) :
    t.kind ≠ .eof := by
  intro same
  unfold Storage.ofToken? at h
  simp [same] at h

theorem storage_eats : Eats src m storage := by
  refine fun t => .current fun here => ?_
  split
  · next s found =>
    refine (TakesAt.advance (ofToken?_kind found)).bind (Nat.le_refl m) fun _ _ _ => ?_
    exact .pure trivial
  · exact .failAt here.start

theorem storage?_stays : Stays src m storage? := by
  refine fun t => .current fun _ => ?_
  split
  · exact storage_eats.stays t
  · exact .pure trivial

section

variable {table : Table} {n : Nat} {inner : Bool → Reader Stmt}

theorem varDecl_takes {start : Pos} {ms : Modifiers} {attrs : List AttributeUse} (steps : m ≤ n) :
    Takes src 1 m (varDecl table n start ms attrs) fun d => d.info.span.start = start := by
  refine fun t => (storage_eats t).bind (Nat.le_refl m) fun s _ t => ?_
  refine (name_eats.stays t).bind (Nat.le_refl _) fun x _ t => ?_
  have type : Stays src (m - 1) (after? (acceptOp .colon) (type n)) :=
    after?_stays acceptOp_leads ((type_eats n).stays.mono (by omega))
  refine (type t).bind (Nat.le_refl _) fun type _ t => ?_
  have value : Stays src (m - 1) (after? (acceptOp .assign) (expression table n)) :=
    after?_stays acceptOp_leads ((expression_eats n).stays.mono (by omega))
  refine (value t).bind (Nat.le_refl _) fun value _ t => ?_
  refine (expectOp_eats.discard.stays t).bind (Nat.le_refl _) fun _ _ t => ?_
  exact .spanFrom fun _ => .pure rfl

theorem injected_takes (token : t.kind ≠ .eof) :
    TakesAt src t 1 m injected fun _ => True := by
  refine (TakesAt.advance token).bind (Nat.le_refl m) fun _ _ t => ?_
  refine ((@expect_eats src _ .raw nofun).stays t).bind (Nat.le_refl _) fun raw _ t => ?_
  refine (acceptOp_stays.discard t).bind (Nat.le_refl _) fun _ _ _ => .pure trivial

theorem blockWith_eats {tail : Bool} (eats : ∀ tail, Eats src (m - 1) (inner tail))
    (steps : m ≤ n) : Eats src m (blockWith n inner tail) := by
  refine fun t => (expectOp_eats t).bind (Nat.le_refl m) fun opener _ t => ?_
  have items : Eats src (m - 1) (bracedList opener (inner tail) n) :=
    bracedList_eats (eats tail) (by omega)
  refine (items.stays t).bind (Nat.le_refl _) fun ss _ t => ?_
  exact .spanFrom fun _ => .pure trivial

theorem alternative_stays {branch : Reader Stmt} (eats : ∀ tail, Eats src (m - 1) (inner tail))
    (steps : m ≤ n) (branches : Eats src m branch) : Stays src m (alternative n inner branch) := by
  refine fun t => .current fun _ => ?_
  split
  · exact branches.stays t
  · exact branches.stays t
  · exact ((blockWith_eats eats steps).stays t).map fun _ _ => trivial

theorem branchWith_eats {again : Reader Stmt} (eats : ∀ tail, Eats src (m - 1) (inner tail))
    (steps : m < n) (more : Eats src (m - 1) again) :
    Eats src m (branchWith table n inner again) := by
  have eats' : ∀ tail, Eats src (m - 1 - 1) (inner tail) :=
    fun tail => (eats tail).mono (by omega)
  refine fun t => .current fun _ => (advance_stays t).bind (Nat.le_refl m) fun _ _ t => ?_
  refine (expression_eats n t).bind (by omega) fun cond _ t => ?_
  refine ((blockWith_eats eats' (by omega)).stays t).bind (Nat.le_refl _) fun yes _ t => ?_
  have no : Stays src (m - 1) (after? (accept (.keyword .kElse)) (alternative n inner again)) :=
    after?_stays (accept_leads nofun) <| .mono (k := m - 1)
      (alternative_stays eats' (by omega) more) (by omega)
  refine (no t).bind (Nat.le_refl _) fun no _ t => ?_
  exact .spanFrom fun _ => .pure trivial

theorem branch_eats (eats : ∀ tail, Eats src (m - 1) (inner tail)) (steps : m < n)
    (enough : m ≤ k) : Eats src m (branch table n inner k) := by
  induction k generalizing m with
  | zero => exact fun _ _ _ _ room => absurd room (by omega)
  | succ k ih =>
    refine branchWith_eats eats steps (ih (fun tail => (eats tail).mono ?_) ?_ ?_) <;> omega

theorem conditional_takes {negate : Bool} (eats : ∀ tail, Eats src (m - 1 - 1) (inner tail))
    (steps : m ≤ n) (token : t.kind ≠ .eof) :
    TakesAt src t 1 m (conditional table n inner t negate) fun _ => True := by
  refine (TakesAt.advance token).bind (Nat.le_refl m) fun _ _ t => ?_
  refine ((expression_eats n).stays t).bind (by omega) fun cond _ t => ?_
  refine ((blockWith_eats eats (by omega)).stays t).bind (Nat.le_refl _) fun b _ t => ?_
  exact .spanFrom fun _ => .pure trivial

theorem counting_takes {kind : CountKind} (eats : ∀ tail, Eats src (m - 1 - 1) (inner tail))
    (steps : m ≤ n) (token : t.kind ≠ .eof) :
    TakesAt src t 1 m (counting table n inner t kind) fun _ => True := by
  have value : Stays src (m - 1) (expression table n) := (expression_eats n).stays.mono (by omega)
  refine (TakesAt.advance token).bind (Nat.le_refl m) fun _ _ t => ?_
  refine (name_eats.stays t).bind (Nat.le_refl _) fun x _ t => ?_
  refine (expectWord_eats.stays t).bind (Nat.le_refl _) fun _ _ t => ?_
  refine (value t).bind (Nat.le_refl _) fun low _ t => ?_
  refine (expectWord_eats.stays t).bind (Nat.le_refl _) fun _ _ t => ?_
  refine (value t).bind (Nat.le_refl _) fun high _ t => ?_
  have step : Stays src (m - 1) (after? (acceptWord "by") (expression table n)) :=
    after?_stays acceptWord_leads (value.mono (by omega))
  refine (step t).bind (Nat.le_refl _) fun step _ t => ?_
  refine ((blockWith_eats eats (by omega)).stays t).bind (Nat.le_refl _) fun b _ t => ?_
  exact .spanFrom fun _ => .pure trivial

theorem returned?_stays : Stays src (n - 1) (returned? table n) :=
  fun t => .check (fun _ => .pure trivial) fun _ =>
    ((expression_eats n).stays t).map fun _ _ => trivial

theorem simple_eats {tail : Bool} : Eats src (n - 1) (simple table n tail) := by
  refine fun t => .current fun _ => ?_
  split
  · refine (modifiers_stays (Nat.sub_le n 1) t).bind (Nat.le_refl _) fun ms _ t => ?_
    refine .current fun _ => ?_
    split
    · refine (varDecl_takes (Nat.sub_le n 1) t).bind (Nat.le_refl _) fun d _ t => ?_
      exact .spanFrom fun _ => .pure trivial
    · exact Takes.never unexpected_takes t
  · refine (expression_eats n t).bind (Nat.le_refl _) fun x _ t => ?_
    refine .check (fun _ => ?_) fun _ => ?_
    all_goals
      split
      · exact .spanFrom fun _ => .pure trivial
      · refine (expectOp_eats.discard.stays t).bind (Nat.le_refl _) fun _ _ t => ?_
        exact .spanFrom fun _ => .pure trivial

end

theorem stmtWith_eats {table : Table} {n : Nat} {inner : Bool → Reader Stmt} {tail : Bool}
    (eats : ∀ tail, Eats src (m - 1) (inner tail)) (steps : m < n) :
    Eats src m (stmtWith table n inner tail) := by
  have later (tail : Bool) : Eats src (m - 1 - 1) (inner tail) :=
    (eats tail).mono (Nat.sub_le _ _)
  have block (tail : Bool) : Stays src (m - 1) (blockWith n inner tail) :=
    (blockWith_eats later (by omega)).stays
  have branches : Eats src m (branch table n inner n) :=
    branch_eats eats steps (Nat.le_of_lt steps)
  have value : Stays src (m - 1) (expression table n) := (expression_eats n).stays.mono (by omega)
  refine fun t => .current fun _ => ?_
  split
  · exact (blockWith_eats eats (by omega) t).map fun _ _ => trivial
  · exact branches t
  · exact branches t
  · next same => exact conditional_takes later (by omega) (same ▸ nofun)
  · next same => exact conditional_takes later (by omega) (same ▸ nofun)
  · next same =>
    refine (TakesAt.advance (same ▸ nofun)).bind (Nat.le_refl _) fun _ _ t => ?_
    refine (block false t).bind (Nat.le_refl _) fun b _ t => ?_
    exact .spanFrom fun _ => .pure trivial
  · next same => exact counting_takes later (by omega) (same ▸ nofun)
  · next same => exact counting_takes later (by omega) (same ▸ nofun)
  · next same => exact counting_takes later (by omega) (same ▸ nofun)
  · next same => exact counting_takes later (by omega) (same ▸ nofun)
  · next same =>
    refine (TakesAt.advance (same ▸ nofun)).bind (Nat.le_refl _) fun _ _ t => ?_
    refine (storage?_stays t).bind (Nat.le_refl _) fun s _ t => ?_
    refine (name_eats.stays t).bind (Nat.le_refl _) fun x _ t => ?_
    refine (expectWord_eats.stays t).bind (Nat.le_refl _) fun _ _ t => ?_
    refine (value t).bind (Nat.le_refl _) fun items _ t => ?_
    refine (block false t).bind (Nat.le_refl _) fun b _ t => ?_
    exact .spanFrom fun _ => .pure trivial
  · next same =>
    refine (TakesAt.advance (same ▸ nofun)).bind (Nat.le_refl _) fun _ _ t => ?_
    refine (returned?_stays.mono (by omega) t).bind (Nat.le_refl _) fun v _ t => ?_
    refine (expectOp_eats.discard.stays t).bind (Nat.le_refl _) fun _ _ t => ?_
    exact .spanFrom fun _ => .pure trivial
  · next same =>
    refine (TakesAt.advance (same ▸ nofun)).bind (Nat.le_refl _) fun _ _ t => ?_
    refine (expectOp_eats.discard.stays t).bind (Nat.le_refl _) fun _ _ t => ?_
    exact .spanFrom fun _ => .pure trivial
  · next same =>
    refine (TakesAt.advance (same ▸ nofun)).bind (Nat.le_refl _) fun _ _ t => ?_
    refine (expectOp_eats.discard.stays t).bind (Nat.le_refl _) fun _ _ t => ?_
    exact .spanFrom fun _ => .pure trivial
  · next same =>
    refine (injected_takes (same ▸ nofun)).bind (Nat.le_refl _) fun text _ t => ?_
    exact .spanFrom fun _ => .pure trivial
  · exact simple_eats.mono (by omega) t

theorem stmt_eats {table : Table} (n : Nat) (tail : Bool) :
    Eats src (n - 2) (stmt table n tail) := by
  induction n generalizing tail with
  | zero => exact fun _ _ _ _ room => absurd room (by omega)
  | succ n ih =>
    by_cases some : n = 0
    · exact fun _ _ _ _ room => absurd room (by omega)
    · exact stmtWith_eats (fun tail => (ih tail).mono (by omega)) (by omega)

theorem body_eats {table : Table} {tail : Bool} (n : Nat) :
    Eats src (n - 1) (body table n tail) :=
  blockWith_eats (fun tail => (stmt_eats n tail).mono (by omega)) (by omega)

/-! ### Attributes and directives -/

theorem attributeArgsWith_stays {cs : List Char} {opener : Token}
    {rest : Int → Int → Reader (List String)} {low depth : Int}
    (more : ∀ low depth, Stays src (m - 1) (rest low depth)) :
    Stays src m (attributeArgsWith cs opener rest low depth) := by
  have on {t : Token} {low depth : Int} (token : t.kind ≠ .eof) :
      TakesAt src t 0 m (advance >>= fun _ => rest low depth) fun _ => True :=
    (TakesAt.advance token).bind (Nat.le_refl _) fun _ _ => more low depth
  refine fun t => .current fun _ => ?_
  split
  · exact unclosed_takes t
  · next same => exact on (same ▸ nofun)
  · next same => exact on (same ▸ nofun)
  · next same => exact on (same ▸ nofun)
  · next same =>
    split
    · exact .pure trivial
    · exact on (same ▸ nofun)
  · next same => exact on (same ▸ nofun)
  · next same => exact on (same ▸ nofun)
  · next same =>
    refine (TakesAt.advance (same ▸ nofun)).bind (Nat.le_refl _) fun _ _ t => ?_
    split
    · refine .pos fun _ => (more _ _ t).bind (Nat.le_refl _) fun _ _ _ => .pure trivial
    · exact more _ _ t
  · next other _ _ _ _ _ _ _ => exact on other

theorem attributeArgs_stays {cs : List Char} {opener : Token} {n : Nat} {low depth : Int}
    (steps : m ≤ n) : Stays src m (attributeArgs cs opener n low depth) := by
  induction n generalizing m low depth with
  | zero => exact fun _ _ _ _ room => absurd room (by omega)
  | succ n ih => exact attributeArgsWith_stays fun _ _ => ih (by omega)

theorem requireArity_ok {namePos : Pos} {x : String} {got : Nat} {c c' : Cursor} {u : Unit}
    (h : requireArity namePos x got c = .ok (u, c')) : c = c' := by
  obtain ⟨_, _, read, h⟩ := bind_ok h
  cases read
  generalize c.arities.lookup x = want at h
  split at h
  · split at h
    · exact absurd h failAt_ok
    · exact (pure_ok h).2
  · exact (pure_ok h).2

theorem TakesAt.get {β : Type} {t : Token} {d : Nat} {f : Cursor → Reader β} {good : β → Prop}
    (next : ∀ c, TakesAt src t d m (f c) good) : TakesAt src t d m (MonadState.get >>= f) good :=
  fun c on here room => next c c on here room

theorem requireArity_stays {namePos : Pos} {x : String} {got : Nat}
    (place : namePos.Readable src) : Stays src m (requireArity namePos x got) := by
  refine fun t => .get fun c => ?_
  split
  · split
    · exact .failAt place
    · exact .pure trivial
  · exact .pure trivial

theorem TakesAt.remember {β : Type} {d : Nat} {x : String × Nat} {f : Unit → Reader β}
    {good : β → Prop} (next : TakesAt src t d m (f ()) good) :
    TakesAt src t d m
      ((modify fun c : Cursor => { c with arities := x :: c.arities }) >>= f) good := by
  intro c on here room
  have later : { c with arities := x :: c.arities }.On src := { on with }
  exact ⟨(next _ later here room).gave, (next _ later here room).failed⟩

section

variable {g : Setting} {info : Span → DeclInfo} {start : Pos}

theorem attributeArgList_stays (steps : m ≤ g.steps) : Stays src m (attributeArgList g) := by
  refine fun t => .current fun _ => ?_
  split
  · refine (advance_stays t).bind (Nat.le_refl _) fun _ _ t => .pos fun _ => ?_
    refine (attributeArgs_stays steps t).bind (Nat.le_refl _) fun xs _ t => ?_
    exact (advance_stays t).bind (Nat.le_refl _) fun _ _ _ => .pure trivial
  · exact .pure trivial

theorem attributeUse_eats (steps : m ≤ g.steps) : Eats src m (attributeUse g) := by
  refine fun t => .pos fun _ => (expectOp_eats.discard t).bind (Nat.le_refl m) fun _ _ t => ?_
  refine .pos fun place => (name_eats.stays t).bind (Nat.le_refl _) fun x _ t => ?_
  have args : Stays src (m - 1) (attributeArgList g) := attributeArgList_stays (by omega)
  refine (args t).bind (Nat.le_refl _) fun xs _ t => ?_
  refine (requireArity_stays place t).bind (Nat.le_refl _) fun _ _ _ => ?_
  exact .spanFrom fun _ => .pure trivial

theorem attributeUse?_steps (steps : m ≤ g.steps) : StepsAt src t m (attributeUse? g) :=
  .check (fun _ => .some <| (attributeUse_eats steps t).map fun _ _ => rfl) fun _ => .none

theorem attributeUses_stays (steps : m ≤ g.steps) : Stays src m (attributeUses g) :=
  many_stays (fun _ => attributeUse?_steps steps) steps

theorem attributeParams_stays (steps : m ≤ g.steps) : Stays src m (attributeParams g) := by
  refine fun t => .current fun _ => ?_
  split
  · refine (advance_stays t).bind (Nat.le_refl _) fun _ _ t => ?_
    exact (commaList_eats name_eats steps).stays t
  · exact .pure trivial

theorem directive_eats (steps : m ≤ g.steps) : Eats src m (directive g) := by
  refine fun t => .check (fun _ => ?_) fun _ => Takes.never unexpected_takes t
  refine (attributeUse_eats steps t).bind (Nat.le_refl m) fun u _ t => ?_
  exact (acceptOp_stays.discard t).bind (Nat.le_refl _) fun _ _ _ => .pure trivial

/-- A declaration whose span starts at `start`. -/
def From (start : Pos) (d : Decl) : Prop := d.info.span.start = start

theorem attributeDef_takes (spans : ∀ span, (info span).span = span) (steps : m ≤ g.steps)
    (token : t.kind ≠ .eof) : TakesAt src t 1 m (attributeDef g info start) (From start) := by
  refine (TakesAt.advance token).bind (Nat.le_refl m) fun _ _ t => ?_
  refine (name_eats.stays t).bind (Nat.le_refl _) fun x _ t => ?_
  have params : Stays src (m - 1) (attributeParams g) := attributeParams_stays (by omega)
  refine (params t).bind (Nat.le_refl _) fun params _ t => .remember ?_
  refine (expectOp_eats.stays t).bind (Nat.le_refl _) fun opener _ t => ?_
  have directives : Eats src (m - 1) (bracedList opener (directive g) g.steps) :=
    bracedList_eats (directive_eats (by omega)) (by omega)
  refine (directives.stays t).bind (Nat.le_refl _) fun ds _ _ => ?_
  exact .spanFrom fun _ => .pure (congrArg Span.start (spans _))

theorem barePathWith_stays {rest : Reader (List String)} (more : Stays src (m - 1) rest) :
    Stays src m (barePathWith rest) := by
  refine fun t => .current fun _ => ?_
  split
  · exact .pure trivial
  · exact unexpected_takes t
  · exact unexpected_takes t
  · exact unexpected_takes t
  · next other _ _ =>
    refine (TakesAt.advance other).bind (Nat.le_refl _) fun _ _ t => ?_
    exact (more t).bind (Nat.le_refl _) fun _ _ _ => .pure trivial

theorem barePath_stays {n : Nat} (steps : m ≤ n) : Stays src m (barePath n) := by
  induction n generalizing m with
  | zero => exact fun _ _ _ _ room => absurd room (by omega)
  | succ n ih => exact barePathWith_stays (ih (by omega))

theorem locality_stays {kind : IncludeKind} : Stays src m (locality kind) := by
  intro t
  unfold locality
  split
  · exact .pure trivial
  · refine acceptWord_leads.bind (fun _ => .pure trivial) ?_
    exact acceptWord_leads.bind (fun _ => .pure trivial) (.pure trivial)

theorem includePath_stays {word : Option Bool} (steps : m ≤ g.steps) :
    Stays src m (includePath g word) := by
  refine fun t => .current fun _ => ?_
  split
  · exact (advance_stays t).bind (Nat.le_refl _) fun _ _ _ => .pure trivial
  · refine (barePath_stays steps t).bind (Nat.le_refl _) fun pieces _ t => ?_
    split
    · exact Takes.never unexpected_takes t
    · exact .pure trivial

theorem includeDecl_takes {kind : IncludeKind} (spans : ∀ span, (info span).span = span)
    (steps : m ≤ g.steps) (token : t.kind ≠ .eof) :
    TakesAt src t 1 m (includeDecl g info start kind) (From start) := by
  refine (TakesAt.advance token).bind (Nat.le_refl m) fun _ _ t => ?_
  refine (locality_stays t).bind (Nat.le_refl _) fun word _ t => ?_
  have path : Stays src (m - 1) (includePath g word) := includePath_stays (by omega)
  refine (path t).bind (Nat.le_refl _) fun path _ t => ?_
  refine (expectOp_eats.discard.stays t).bind (Nat.le_refl _) fun _ _ _ => ?_
  exact .spanFrom fun _ => .pure (congrArg Span.start (spans _))

theorem assumeDecl_takes (spans : ∀ span, (info span).span = span)
    (steps : m ≤ g.steps) (token : t.kind ≠ .eof) :
    TakesAt src t 1 m (assumeDecl g info start) (From start) := by
  refine (TakesAt.advance token).bind (Nat.le_refl m) fun _ _ t => ?_
  have name : Eats src (m - 1) (dottedName g.steps) := dottedName_eats (by omega)
  refine (name.stays t).bind (Nat.le_refl _) fun x _ t => ?_
  refine (expectWord_eats.stays t).bind (Nat.le_refl _) fun _ _ t => .current fun _ => ?_
  split
  · exact unexpected_takes t
  · refine (advance_stays t).bind (Nat.le_refl _) fun _ _ t => ?_
    refine (expectOp_eats.discard.stays t).bind (Nat.le_refl _) fun _ _ _ => ?_
    exact .spanFrom fun _ => .pure (congrArg Span.start (spans _))

/-! ### Declarations -/

theorem param_eats (steps : m ≤ g.steps) : Eats src m (param g) := by
  refine fun t => .pos fun _ => (storage?_stays t).bind (Nat.le_refl m) fun s _ t => ?_
  refine (name_eats t).bind (Nat.le_refl _) fun x _ t => ?_
  refine (expectOp_eats.discard.stays t).bind (Nat.le_refl _) fun _ _ t => ?_
  refine ((type_eats g.steps).stays t).bind (by omega) fun type _ t => ?_
  have value : Stays src (m - 1) (after? (acceptOp .assign) (expression g.table g.steps)) :=
    after?_stays acceptOp_leads ((expression_eats g.steps).stays.mono (by omega))
  refine (value t).bind (by omega) fun v _ _ => ?_
  exact .spanFrom fun _ => .pure trivial

theorem operatorSymbol_stays : Stays src m operatorSymbol := by
  refine fun t => .current fun _ => .nextKind fun kind => ?_
  split
  · refine (advance_stays t).bind (Nat.le_refl _) fun _ _ t => ?_
    exact (advance_stays t).bind (Nat.le_refl _) fun _ _ _ => .pure trivial
  · refine (advance_stays t).bind (Nat.le_refl _) fun _ _ t => ?_
    exact (advance_stays t).bind (Nat.le_refl _) fun _ _ _ => .pure trivial
  · exact unexpected_takes t
  · exact unexpected_takes t
  · exact (advance_stays t).bind (Nat.le_refl _) fun _ _ _ => .pure trivial
  · exact unexpected_takes t

theorem funcName_stays : Stays src m funcName := by
  refine fun t => (@accept_leads src (.keyword .kOperator) nofun).bind (fun t => ?_) ?_
  · exact (operatorSymbol_stays t).bind (Nat.le_refl _) fun _ _ _ => .pure trivial
  · exact (name_eats.stays t).bind (Nat.le_refl _) fun _ _ _ => .pure trivial

theorem bodyHere_stays {tail : Bool} (steps : m < g.steps) : Stays src m (bodyHere g tail) := by
  refine fun t => .check (fun _ => ?_) fun _ => ?_
  · exact ((body_eats g.steps).stays.mono (by omega) t).map fun _ _ => trivial
  · exact (expectOp_eats.discard.stays t).bind (Nat.le_refl _) fun _ _ _ => .pure trivial

theorem func_eats (spans : ∀ span, (info span).span = span) (steps : m < g.steps) :
    Takes src 1 m (func g info start) fun f => f.info.span.start = start := by
  refine fun t => ((@expect_eats src m (.keyword .kFn) nofun).discard t).bind (Nat.le_refl m)
    fun _ _ t => ?_
  refine (funcName_stays t).bind (Nat.le_refl _) fun x _ t => ?_
  refine (expectOp_eats.stays t).bind (Nat.le_refl _) fun opener _ t => ?_
  have params : Eats src (m - 1) (commaList opener .closeParen (param g) g.steps) :=
    commaList_eats (param_eats (by omega)) (by omega)
  refine (params.stays t).bind (Nat.le_refl _) fun params _ t => ?_
  have accept : Stays src (m - 1) (accept (.modifier .const)) := accept_stays nofun
  refine (accept t).bind (Nat.le_refl _) fun constant _ t => ?_
  have result : Stays src (m - 1) (after? (acceptOp .arrow) (type g.steps)) :=
    after?_stays acceptOp_leads ((type_eats g.steps).stays.mono (by omega))
  refine (result t).bind (Nat.le_refl _) fun result _ t => ?_
  have body {tail : Bool} : Stays src (m - 1) (bodyHere g tail) := bodyHere_stays (by omega)
  refine (body t).bind (Nat.le_refl _) fun b _ _ => ?_
  exact .spanFrom fun _ => .pure (congrArg Span.start (spans _))

theorem funcHere_eats (steps : m < g.steps) : Eats src m (funcHere g) := by
  refine fun t => ?_
  refine (attributeUses_stays (Nat.le_of_lt steps) t).bind (Nat.le_refl m) fun attrs _ t => ?_
  refine .pos fun _ => ?_
  refine (modifiers_stays (Nat.le_of_lt steps) t).bind (Nat.le_refl _) fun ms _ t => ?_
  refine .check (fun _ => ?_) fun _ => Takes.never unexpected_takes t
  exact (func_eats (fun _ => rfl) steps t).mono (Nat.le_refl _) (Nat.le_refl _) fun _ _ => trivial

theorem funcBlock_eats (steps : m < g.steps) : Eats src m (funcBlock g) := by
  refine fun t => (expectOp_eats t).bind (Nat.le_refl m) fun opener _ t => ?_
  have members : Eats src (m - 1) (bracedList opener (funcHere g) g.steps) :=
    bracedList_eats (funcHere_eats (by omega)) (by omega)
  exact members.stays t

theorem enumMember_eats (steps : m ≤ g.steps) : Eats src m (enumMember g) := by
  refine fun t => .pos fun _ => (name_eats t).bind (Nat.le_refl m) fun x _ t => ?_
  have value : Stays src (m - 1) (after? (acceptOp .assign) (expression g.table g.steps)) :=
    after?_stays acceptOp_leads ((expression_eats g.steps).stays.mono (by omega))
  refine (value t).bind (Nat.le_refl _) fun v _ _ => ?_
  exact .spanFrom fun _ => .pure trivial

theorem enumDecl_takes (spans : ∀ span, (info span).span = span) (steps : m ≤ g.steps)
    (token : t.kind ≠ .eof) :
    TakesAt src t 1 m (enumDecl g info start) fun d => d.info.span.start = start := by
  refine (TakesAt.advance token).bind (Nat.le_refl m) fun _ _ t => ?_
  refine (name_eats.stays t).bind (Nat.le_refl _) fun x _ t => ?_
  refine (expectOp_eats.stays t).bind (Nat.le_refl _) fun opener _ t => ?_
  have members : Eats src (m - 1) (commaList opener .closeBrace (enumMember g) g.steps) :=
    commaList_eats (enumMember_eats (by omega)) (by omega)
  refine (members.stays t).bind (Nat.le_refl _) fun members _ _ => ?_
  exact .spanFrom fun _ => .pure (congrArg Span.start (spans _))

theorem furtherBase_steps (steps : m ≤ g.steps) :
    StepsAt src t m (after? (acceptOp .comma) (type g.steps)) := by
  refine .lead acceptOp_leads fun t => ?_
  exact ((type_eats g.steps).stays.mono (by omega) t).map fun _ _ => rfl

theorem bases_stays (steps : m ≤ g.steps) : Stays src m (bases g) := by
  refine fun t => acceptWord_leads.bind (fun t => ?_) (.pure trivial)
  refine ((type_eats g.steps).stays t).bind (by omega) fun first _ t => ?_
  have more : Stays src (m - 1) (many (after? (acceptOp .comma) (type g.steps)) g.steps) :=
    many_stays (fun _ => furtherBase_steps (by omega)) (by omega)
  exact (more t).bind (Nat.le_refl _) fun _ _ _ => .pure trivial

theorem asItem_stays {d : Decl} (place : d.info.span.start.Readable src) :
    Stays src m (asItem d) := by
  intro t
  unfold asItem
  split
  · exact .pure trivial
  · exact .pure trivial
  · exact .failAt place

/-- Reading a declaration whose span starts in the text. -/
def Places (src : String) (m : Nat) (r : Reader Decl) : Prop :=
  Takes src 1 m r fun d => d.info.span.start.Readable src

theorem Places.eats {r : Reader Decl} (h : Places src m r) : Eats src m r :=
  fun t => (h t).mono (Nat.le_refl _) (Nat.le_refl _) fun _ _ => trivial

theorem Places.member {r : Reader Decl} (h : Places src m r) : Eats src m (r >>= asItem) :=
  fun t => (h t).bind (Nat.le_refl _) fun _ place => asItem_stays place

theorem declWith_eats {inner : Reader Decl} (eats : Places src (m - 1) inner)
    (steps : m < g.steps) : Places src m (declWith g inner) := by
  have member : Eats src (m - 1) (inner >>= asItem) := eats.member
  have inner : Eats src (m - 1) inner := eats.eats
  have target : Stays src (m - 1) (type g.steps) := (type_eats g.steps).stays.mono (by omega)
  have funcs : Stays src (m - 1) (funcBlock g) := (funcBlock_eats (by omega)).stays
  refine fun t => ?_
  refine (attributeUses_stays (Nat.le_of_lt steps) t).bind (Nat.le_refl m) fun attrs _ first => ?_
  refine .pos fun place => ?_
  refine (modifiers_stays (Nat.le_of_lt steps) first).bind (Nat.le_refl _) fun ms _ t => ?_
  refine .current fun _ => ?_
  -- whatever is read from here on starts behind the attributes
  suffices starts : TakesAt src t 1 m _ (From first.pos) from
    starts.mono (Nat.le_refl _) (Nat.le_refl _) fun d (same : _ = _) => same ▸ place
  have spans (span : Span) : ({ span, attrs, modifiers := ms : DeclInfo }).span = span := rfl
  have wide := Nat.le_of_lt steps
  split
  · next same => exact includeDecl_takes spans wide (same ▸ nofun)
  · next same => exact includeDecl_takes spans wide (same ▸ nofun)
  · next same => exact includeDecl_takes spans wide (same ▸ nofun)
  · next same => exact includeDecl_takes spans wide (same ▸ nofun)
  · next same => exact assumeDecl_takes spans wide (same ▸ nofun)
  · next same =>
    refine (injected_takes (same ▸ nofun)).bind (Nat.le_refl m) fun text _ _ => ?_
    exact .spanFrom fun _ => .pure rfl
  · next same =>
    refine (TakesAt.advance (same ▸ nofun)).bind (Nat.le_refl m) fun _ _ t => ?_
    refine (name_eats.stays t).bind (Nat.le_refl _) fun x _ t => ?_
    refine (expectOp_eats.stays t).bind (Nat.le_refl _) fun opener _ t => ?_
    refine ((bracedList_eats inner (by omega)).stays t).bind (Nat.le_refl _) fun ds _ _ => ?_
    exact .spanFrom fun _ => .pure rfl
  · next same =>
    refine (TakesAt.advance (same ▸ nofun)).bind (Nat.le_refl m) fun _ _ t => ?_
    refine (name_eats.stays t).bind (Nat.le_refl _) fun x _ t => ?_
    refine (bases_stays (by omega) t).bind (Nat.le_refl _) fun bs _ t => ?_
    refine (expectOp_eats.stays t).bind (Nat.le_refl _) fun opener _ t => ?_
    refine ((bracedList_eats member (by omega)).stays t).bind (Nat.le_refl _) fun items _ _ => ?_
    exact .spanFrom fun _ => .pure rfl
  · next same =>
    refine (TakesAt.advance (same ▸ nofun)).bind (Nat.le_refl m) fun _ _ t => ?_
    refine (name_eats.stays t).bind (Nat.le_refl _) fun x _ t => ?_
    refine (expectWord_eats.stays t).bind (Nat.le_refl _) fun _ _ t => ?_
    refine (target t).bind (Nat.le_refl _) fun target _ t => ?_
    refine (funcs t).bind (Nat.le_refl _) fun fs _ _ => ?_
    exact .spanFrom fun _ => .pure rfl
  · next same =>
    refine (TakesAt.advance (same ▸ nofun)).bind (Nat.le_refl m) fun _ _ t => ?_
    refine (target t).bind (Nat.le_refl _) fun target _ t => ?_
    refine (funcs t).bind (Nat.le_refl _) fun fs _ _ => ?_
    exact .spanFrom fun _ => .pure rfl
  · next same => exact (enumDecl_takes spans wide (same ▸ nofun)).map fun _ same => same
  · next same => exact attributeDef_takes spans wide (same ▸ nofun)
  · exact (func_eats spans steps t).map fun _ same => same
  · exact (varDecl_takes wide t).map fun _ same => same
  · exact unexpected_takes t

theorem decl_eats (n : Nat) (fuel : m ≤ n) (steps : m < g.steps) : Places src m (decl g n) := by
  induction n generalizing m with
  | zero => exact fun _ _ _ _ room => absurd room (by omega)
  | succ n ih => exact declWith_eats (ih (by omega) (by omega)) steps

theorem declsWith_stays {rest : Reader (List Decl)} (steps : m < g.steps)
    (more : Stays src (m - 1) rest) : Stays src m (declsWith g rest) := by
  refine fun t => .check (fun _ => .pure trivial) fun _ => ?_
  refine (decl_eats g.steps (Nat.le_of_lt steps) steps t).bind (Nat.le_refl m) fun d _ t => ?_
  exact (more t).bind (Nat.le_refl _) fun _ _ _ => .pure trivial

theorem decls_stays (n : Nat) (fuel : m ≤ n) (steps : m < g.steps) :
    Stays src m (decls g n) := by
  induction n generalizing m with
  | zero => exact fun _ _ _ _ room => absurd room (by omega)
  | succ n ih => exact declsWith_stays steps (ih (by omega) (by omega))

theorem decls_end {n : Nat} {c c' : Cursor} {ds : List Decl} (h : decls g n c = .ok (ds, c')) :
    c'.current.kind = .eof := by
  induction n generalizing c ds with
  | zero => exact absurd h exhausted_ok
  | succ n ih =>
    obtain ⟨_, _, read, h⟩ := bind_ok h
    obtain ⟨rfl, rfl⟩ := check_ok read
    split at h
    · next mark =>
      obtain ⟨-, rfl⟩ := pure_ok h
      exact eq_of_beq mark
    · obtain ⟨d, _, _, h⟩ := bind_ok h
      obtain ⟨ds, _, rest, h⟩ := bind_ok h
      obtain ⟨-, rfl⟩ := pure_ok h
      exact ih rest

end

end Reader

/-! ### Texts -/

theorem Cursor.On.start {src : String} {c : Cursor}
    (h : Cursor.checked { rest := (Token.stream src).tokens, stop := (Token.stream src).stop } =
      .ok c) : c.On src := by
  obtain ⟨rfl, ends⟩ := Cursor.checked_ok h
  exact ⟨rfl, .whole (List.suffix_refl _), Token.stream_readable src,
    fun t member => ((Token.stream_stands src).1 t member).mark, ends⟩

theorem Cursor.On.ends_of_kind {src : String} {c : Cursor} (on : c.On src)
    (mark : c.current.kind = .eof) : ∃ p, (Token.stream src).stop = .ok p := by
  rw [← on.stop]
  refine on.ends ?_
  cases rest : c.rest with
  | nil => rfl
  | cons t ts =>
    rw [Cursor.current, rest] at mark
    exact absurd mark (on.marks t (rest ▸ List.mem_cons_self))

namespace Reader

theorem run_ended {α : Type} {src : String} {reader : Nat → Reader α}
    (stays : ∀ n, Stays src (n - 1) (reader n)) :
    (∀ a, run src reader = .ok a → ∃ n c c', c'.On src ∧ reader n c = .ok (a, c')) ∧
      ∀ e, run src reader = .error e → e.Arises src := by
  have ended {c : Cursor} (on : c.On src) : Ended src 0 _ c (reader (c.weight + 2) c) :=
    stays (c.weight + 2) c.current c on rfl (by omega)
  refine ⟨fun a done => ?_, fun e failed => ?_⟩
  · obtain ⟨c, checked, done⟩ := except_bind_ok done
    obtain ⟨⟨b, c'⟩, result, done⟩ := except_bind_ok done
    cases done
    exact ⟨_, c, c', ((ended (.start checked)).gave _ _ result).1, result⟩
  · rcases except_bind_error failed with failed | ⟨c, checked, failed⟩
    · obtain ⟨e, stop, rfl⟩ := Cursor.checked_error failed
      exact stop
    · rcases except_bind_error failed with failed | ⟨_, _, failed⟩
      · exact (ended (.start checked)).failed e failed
      · cases failed

end Reader

theorem File.read_ended (table : Table) (name src : String) :
    (∀ file, File.read table name src = .ok file → ∃ p, (Token.stream src).stop = .ok p) ∧
      ∀ e, File.read table name src = .error e → e.Arises src := by
  have ended := @Reader.run_ended File src (fun n => do
    let start ← Reader.pos
    let ds ← Reader.decls ⟨table, src.toList, n⟩ n
    return ⟨⟨start, ← Reader.pos⟩, name, ds⟩) fun n t c on here room => by
      have decls : Reader.Stays src (n - 1) (Reader.decls ⟨table, src.toList, n⟩ n) :=
        Reader.decls_stays n (Nat.sub_le n 1) (show n - 1 < n by omega)
      refine (Reader.TakesAt.pos fun _ => ?_) c on here room
      refine (decls t).bind (Nat.le_refl _) fun ds _ t => ?_
      exact .pos fun _ => .pure trivial
  refine ⟨fun file done => ?_, ended.2⟩
  obtain ⟨n, c, c', on, done⟩ := ended.1 file done
  obtain ⟨start, _, -, done⟩ := bind_ok done
  obtain ⟨ds, _, decls, done⟩ := bind_ok done
  obtain ⟨stop, _, read, done⟩ := bind_ok done
  obtain ⟨-, rfl⟩ := Reader.pos_ok read
  obtain ⟨-, rfl⟩ := pure_ok done
  exact on.ends_of_kind (Reader.decls_end decls)

/-- A place where an error in a text is shown: right behind some of its characters, together with
the line that goes on there. -/
def Pos.ShownIn (p : Pos) (src : String) : Prop :=
  ∃ before after, src.toList = before ++ after ∧ p.Follows before ∧
    p.offset ≤ src.utf8ByteSize ∧
    ∀ d : Diagnostic, d.pos = p → (d.withSource src).line =
      String.ofList (Text.dropLastWhile (· = '\r') (Text.lineAt before after))

theorem Pos.IsIn.shown {p : Pos} {src : String} (h : p.IsIn src.toList) : p.ShownIn src := by
  obtain ⟨before, after, split, place⟩ := h
  have follows : p.Follows before := place ▸ Pos.afterAll_follows before
  refine ⟨before, after, split, follows, ?_, fun d same => ?_⟩
  · have size : src.utf8ByteSize = Text.size (before ++ after) := by
      rw [← split, Text.size, String.ofList_toList]
    rw [follows.offset, size, Text.size_append]
    omega
  · exact Diagnostic.withSource_line split (same.trans place)

/-- No lexical error of a text is passed over, and errors are shown where they are: a text that
cannot be cut into tokens cannot be read either, because of the same error or because of one in
front of it; and every error is at a place in the text. -/
theorem File.read_faults (table : Table) (name src : String) :
    (∀ e, Token.scan src = .error e → e.pos.ShownIn src ∧
      (File.read table name src = .error (.scan e) ∨
        ∃ p, File.read table name src = .error (.parse p) ∧ p.pos.offset < e.pos.offset)) ∧
    (∀ file, File.read table name src = .ok file → ∃ ts, Token.scan src = .ok ts) ∧
    ∀ failure, File.read table name src = .error failure →
      failure ≠ .exhausted ∧ (CompileError.read failure).pos.ShownIn src := by
  obtain ⟨reads, fails⟩ := File.read_ended table name src
  have stop_of_scan {e : Token.ScanError} (failed : Token.scan src = .error e) :
      (Token.stream src).stop = .error e := by
    cases stop : (Token.stream src).stop with
    | ok p =>
      rw [Token.scan, stop] at failed
      cases failed
    | error e' =>
      rw [Token.scan, stop] at failed
      cases failed
      rfl
  have shown {e : Token.ScanError} (stop : (Token.stream src).stop = .error e) :
      e.pos.ShownIn src := by
    have place := (Token.stream_stands src).2
    rw [Token.Stream.stopPos, stop] at place
    exact place.shown
  refine ⟨fun e failed => ⟨shown (stop_of_scan failed), ?_⟩, fun file done => ?_,
    fun failure failed => ?_⟩
  · have stop := stop_of_scan failed
    cases read : File.read table name src with
    | ok file =>
      obtain ⟨p, ends⟩ := reads file read
      rw [stop] at ends
      cases ends
    | error failure =>
      cases failure with
      | scan e' =>
        left
        have same : (Token.stream src).stop = .error e' := fails _ read
        rw [stop] at same
        cases same
        rfl
      | parse p =>
        exact .inr ⟨p, rfl, (show p.pos.Readable src from fails _ read).early e stop⟩
      | exhausted => exact (fails _ read).elim
  · obtain ⟨p, stop⟩ := reads file done
    exact ⟨_, by rw [Token.scan, stop]; rfl⟩
  · cases failure with
    | scan e => exact ⟨by rintro ⟨⟩, shown (fails _ failed)⟩
    | parse p => exact ⟨by rintro ⟨⟩, (show p.pos.Readable src from fails _ failed).inside.shown⟩
    | exhausted => exact (fails _ failed).elim

/-- A stray parenthesis in front of a text that does not end. -/
theorem File.read_faults_of_parenthesis :
    let src := "fn )\n \"end"
    (∃ e, Token.scan src = .error e ∧ e.pos.ShownIn src ∧
      (File.read default "a" src = .error (.scan e) ∨
        ∃ p, File.read default "a" src = .error (.parse p) ∧ p.pos.offset < e.pos.offset)) ∧
    (∃ ts, Token.scan "copy x: int;" = .ok ts) ∧
    ∃ failure, File.read default "a" src = .error failure ∧
      (CompileError.read failure).pos.ShownIn src := by
  intro src
  have scan : Token.scan src = .error ⟨.unterminatedString, ⟨2, 2, 6⟩⟩ := by
    rw [Token.scan, Token.stream_ofList]
    decide +kernel
  have bad : (File.read default "a" src).toOption.isSome = false := by
    rw [File.read_ofList]
    decide +kernel
  obtain ⟨failure, read⟩ : ∃ failure, File.read default "a" src = .error failure := by
    cases result : File.read default "a" src with
    | ok file => rw [result] at bad; cases bad
    | error failure => exact ⟨failure, rfl⟩
  have good : (File.read default "a" "copy x: int;").toOption.isSome = true := by
    rw [File.read_ofList]
    decide +kernel
  obtain ⟨file, found⟩ := Option.isSome_iff_exists.mp good
  have faults := File.read_faults default "a" src
  exact ⟨⟨_, scan, faults.1 _ scan⟩,
    (File.read_faults default "a" "copy x: int;").2.1 file (toOption_eq_some found),
    _, read, (faults.2.2 _ read).2⟩

end TastyLang
