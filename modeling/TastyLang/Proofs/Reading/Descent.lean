import TastyLang.Proofs.Evaluation
import TastyLang.Proofs.Reading.Faults

/-!
# Reading gets to an end

What is not read yet gets less with each turn: each loop goes round again, and each production is
read inside of itself, only where fewer bytes of the text are unread (`Recursion.descends`). Of `>>`
and `>=` the first character may be read alone; then the other one is still unread. So a text, and
a text read as an expression, gives a tree or an error (`reading_ends`).
-/

namespace TastyLang

open Token (startOf)

/-! ### Unread bytes -/

namespace Cursor

variable {src : String} {c c' : Cursor} {ts : List Token} {b : Nat}

/-- How many bytes of a text are not read yet, those of the current token among them. -/
def unread (src : String) (c : Cursor) : Int := src.utf8ByteSize - c.current.pos.offset

theorem On.unread_bounds (on : c.On src) :
    0 ≤ c.unread src ∧ c.unread src ≤ src.utf8ByteSize := by
  obtain ⟨before, after, split, follows⟩ := on.current.start.inside.follows
  have size : src.utf8ByteSize = Text.size (before ++ after) := by
    rw [← split, Text.size, String.ofList_toList]
  rw [unread, follows.offset, size, Text.size_append]
  omega

/-- What there is to read in some tokens. -/
def load (ts : List Token) : Nat := ts.foldl (fun n t => n + t.literal.length + 1) 0

theorem load_cons (t : Token) (ts : List Token) :
    load (t :: ts) = t.literal.length + 1 + load ts :=
  weight_cons (c := { rest := t :: ts, stop := .ok {} }) rfl

theorem load_le {us : List Token} (part : us <:+ ts) : load us ≤ load ts := by
  induction ts with
  | nil => rw [List.suffix_nil.mp part]
  | cons t ts ih =>
    rcases List.suffix_cons_iff.mp part with rfl | part
    · exact Nat.le_refl _
    · have rest := ih part
      rw [load_cons]
      omega

/-- The cursor stands at the tokens `ts` of the text, or one character behind the start of them. -/
structure Within (src : String) (c : Cursor) (ts : List Token) (b : Nat) : Prop where
  part : ts <:+ (Token.stream src).tokens
  weight : c.weight + b = load ts
  place : c.current.pos.offset = (startOf (Token.stream src).stopPos ts).offset + b
  short : b = 0 ∨ b = 1 ∧ ∃ t us, ts = t :: us ∧ t.literal.length = 2

theorem On.within (on : c.On src) : ∃ ts b, c.Within src ts b := by
  obtain ⟨rest, stop, lastEnd, arities⟩ := c
  cases on.along with
  | whole tail =>
    refine ⟨rest, 0, tail, rfl, ?_, .inl rfl⟩
    have stop : stop = (Token.stream src).stop := on.stop
    subst stop
    cases rest with
    | nil => exact (Int.add_zero _).symm
    | cons t rest => exact (Int.add_zero _).symm
  | @second t left rest tail _ place wide narrow =>
    refine ⟨t :: rest, 1, tail, ?_, congrArg Pos.offset place, .inr ⟨rfl, t, rest, rfl, wide⟩⟩
    show load (left :: rest) + 1 = _
    rw [load_cons, load_cons, wide, narrow]
    omega

theorem Within.behind {t : Token} {us : List Token} {b' : Nat} (here : c.Within src ts b)
    (there : c'.Within src (t :: us) b') (part : ts <:+ us) :
    c.weight < c'.weight ∧ c.unread src < c'.unread src := by
  obtain ⟨-, before, ordered⟩ : Token.Ordered (Token.stream src).stopPos (t :: us) :=
    (Token.stream_ordered src).suffix there.part
  have start := before.start
  have stop := before.stop
  have later := ordered.start_le part
  have less := load_le part
  have weight := here.weight
  have weight' := there.weight
  have place := here.place
  have place' : _ = t.pos.offset + b' := there.place
  have short : b ≤ 1 := by rcases here.short with h | ⟨h, -⟩ <;> omega
  have short' : b' = 0 ∨ b' = 1 ∧ t.literal.length = 2 := by
    rcases there.short with h | ⟨h, _, _, same, wide⟩
    · exact .inl h
    · cases same
      exact .inr ⟨h, wide⟩
  rw [load_cons] at weight'
  rw [unread, unread]
  omega

theorem On.weight_lt_iff (on : c.On src) (on' : c'.On src) :
    c.weight < c'.weight ↔ c.unread src < c'.unread src := by
  obtain ⟨ts, b, here⟩ := on.within
  obtain ⟨us, b', there⟩ := on'.within
  have alike (same : ts = us) : c.weight < c'.weight ↔ c.unread src < c'.unread src := by
    subst same
    have weight := here.weight
    have weight' := there.weight
    have place := here.place
    have place' := there.place
    rw [unread, unread]
    omega
  rcases List.suffix_or_suffix_of_suffix here.part there.part with part | part
  · cases us with
    | nil => exact alike (List.suffix_nil.mp part)
    | cons u us =>
      rcases List.suffix_cons_iff.mp part with same | part
      · exact alike same
      · have less := here.behind there part
        exact iff_of_true less.1 less.2
  · cases ts with
    | nil => exact alike (List.suffix_nil.mp part).symm
    | cons t ts =>
      rcases List.suffix_cons_iff.mp part with same | part
      · exact alike same.symm
      · have more := there.behind here part
        exact iff_of_false (Nat.not_lt_of_lt more.1) (Int.not_lt.mpr (Int.le_of_lt more.2))

theorem On.weight_le (on : c.On src) : c.weight ≤ load (Token.stream src).tokens := by
  obtain ⟨ts, b, here⟩ := on.within
  exact Nat.le_trans (here.weight ▸ Nat.le_add_right _ b) (load_le here.part)

end Cursor

namespace Reader

variable {ι α : Type} {src : String} {d m n : Nat} {good : α → Prop} {c : Cursor}

/-! ### Turns -/

/-- What came of a reader that started at `c`: a good value behind `d` bytes or more, or an error
of the text. -/
structure Returns (src : String) (d : Nat) (good : α → Prop) (c : Cursor)
    (run : Except SyntaxError (α × Cursor)) : Prop where
  gave : ∀ a c', run = .ok (a, c') → c'.On src ∧ c'.unread src + d ≤ c.unread src ∧ good a
  failed : ∀ e, run = .error e → e.Arises src

theorem Takes.of_pos {r : Reader α} (h : 0 < m → Takes src d m r good) : Takes src d m r good :=
  fun t c on here room => h (Nat.zero_lt_of_lt room) t c on here room

theorem ended_iff_returns {run : Except SyntaxError (α × Cursor)} (on : c.On src) (least : d ≤ 1) :
    Ended src d good c run ↔ Returns src d good c run := by
  have same {c' : Cursor} (on' : c'.On src) :
      c'.weight + d ≤ c.weight ↔ c'.unread src + d ≤ c.unread src := by
    have less := on'.weight_lt_iff on
    have more := on.weight_lt_iff on'
    obtain rfl | rfl : d = 0 ∨ d = 1 := by omega
    all_goals omega
  refine ⟨fun h => ⟨fun a c' run => ?_, h.failed⟩, fun h => ⟨fun a c' run => ?_, h.failed⟩⟩
  · obtain ⟨on', less, value⟩ := h.gave a c' run
    exact ⟨on', (same on').mp less, value⟩
  · obtain ⟨on', less, value⟩ := h.gave a c' run
    exact ⟨on', (same on').mpr less, value⟩

/-- A reader with `n + 1` steps is one turn, which goes on by the reader with `n` steps. A turn
returns whatever `again` does, also if that runs out of steps, where no fewer bytes are unread than at
its start: so it does not go on there, and nothing but the text can make it fail. It reads `d` bytes
or more. `room` bounds what is left to read, so that the other readers of a turn have enough steps. -/
structure Recursion (src : String) (d : Nat) (good : α → Prop) (room : Nat → Nat)
    (reader : Nat → ι → Reader α) (turn : Nat → (ι → Reader α) → ι → Reader α) : Prop where
  turns : ∀ n i, reader (n + 1) i = turn n (reader n) i
  descends : ∀ n c, c.On src → c.weight < room n → ∀ again : ι → Reader α,
    (∀ i c', c'.On src → c'.unread src < c.unread src → Returns src d good c' (again i c')) →
      ∀ i, Returns src d good c (turn n again i c)

theorem Recursion.of_takes {room : Nat → Nat} {reader : Nat → ι → Reader α}
    {turn : Nat → (ι → Reader α) → ι → Reader α} (least : d ≤ 1)
    (turns : ∀ n i, reader (n + 1) i = turn n (reader n) i)
    (takes : ∀ n m again, m ≤ room n → (∀ i, Takes src d (m - 1) (again i) good) →
      ∀ i, Takes src d m (turn n again i) good) : Recursion src d good room reader turn := by
  refine ⟨turns, fun n c on enough again returns i => (ended_iff_returns on least).mp ?_⟩
  refine takes n (c.weight + 1) again enough (fun i t c' on' _ less => ?_) i _ c on rfl
    (Nat.lt_succ_self _)
  exact (ended_iff_returns on' least).mpr (returns i c' on' ((on'.weight_lt_iff on).mp less))

/-- A loop or a recursion that reads on each time. -/
abbrev Eating (src : String) (room : Nat → Nat) (reader : Nat → ι → Reader α)
    (turn : Nat → (ι → Reader α) → ι → Reader α) : Prop :=
  Recursion src 1 (fun _ => True) room reader turn

/-- A loop or a recursion that may end in its place. -/
abbrev Staying (src : String) (room : Nat → Nat) (reader : Nat → ι → Reader α)
    (turn : Nat → (ι → Reader α) → ι → Reader α) : Prop :=
  Recursion src 0 (fun _ => True) room reader turn

section

variable {opener : Token} {closer : Operator} {item : Reader α}

theorem commaList_descends (eats : Eats src m item) :
    Eating src (fun _ => m) (fun k (_ : Unit) => commaList opener closer item k)
      fun _ again _ => commaListWith opener closer item (again ()) :=
  .of_takes (Nat.le_refl 1) (fun _ _ => rfl) fun _ _ _ less more _ =>
    commaListWith_eats (eats.mono less) (more ())

theorem bracedList_descends (eats : Eats src m item) :
    Eating src (fun _ => m) (fun k (_ : Unit) => bracedList opener item k)
      fun _ again _ => bracedListWith opener item (again ()) :=
  .of_takes (Nat.le_refl 1) (fun _ _ => rfl) fun _ _ _ less more _ =>
    bracedListWith_eats (eats.mono less) (more ())

theorem iterate_descends {step : α → Reader (Option α)} (once : ∀ x t, StepsAt src t m (step x)) :
    Staying src (fun _ => m) (iterate step) fun _ => iterateWith step :=
  .of_takes (Nat.zero_le 1) (fun _ _ => rfl) fun _ _ _ less more _ =>
    iterateWith_stays (fun x t => (once x t).mono less) more

theorem many_descends {item : Reader (Option α)} (once : ∀ t, StepsAt src t m item) :
    Staying src (fun _ => m) (fun k (_ : Unit) => many item k)
      fun _ again _ => manyWith item (again ()) :=
  .of_takes (Nat.zero_le 1) (fun _ _ => rfl) fun _ _ _ less more _ =>
    manyWith_stays (fun t => (once t).mono less) (more ())

end

/-! ### The loops and recursions of each part of the language -/

/-- Those of types, where a loop has `n` steps. -/
structure TypesDescend (src : String) (n : Nat) : Prop where
  names : Staying src (fun _ => n) (iterate dotName) fun _ => iterateWith dotName
  stars : Staying src (fun _ => n) (iterate star) fun _ => iterateWith star
  arguments : ∀ opener, Eating src (fun _ => n)
    (fun k (_ : Unit) => templateArgs opener (type n) k)
    fun _ again _ => templateArgsWith opener (type n) (again ())
  lists : ∀ opener, Eating src (fun _ => n)
    (fun k (_ : Unit) => commaList opener .closeParen (type n) k)
    fun _ again _ => commaListWith opener .closeParen (type n) (again ())
  types : Eating src (fun k => k + 1) (fun k (_ : Unit) => type k)
    fun k again _ => typeWith k (again ())

theorem types_descend (src : String) (n : Nat) : TypesDescend src n where
  names := iterate_descends fun _ _ => dotName_steps
  stars := iterate_descends fun _ _ => star_steps
  arguments _ := .of_takes (Nat.le_refl 1) (fun _ _ => rfl) fun _ _ _ less more _ =>
    templateArgsWith_eats ((type_eats n).mono less) (more ())
  lists _ := commaList_descends (type_eats n)
  types := .of_takes (Nat.le_refl 1) (fun _ _ => rfl) fun _ _ _ less more _ =>
    typeWith_eats (more ()) less

/-- Those of expressions. -/
structure ExpressionsDescend (table : Table) (src : String) (n : Nat) : Prop where
  arguments : ∀ opener, Eating src (fun _ => n - 1)
    (fun k (_ : Unit) => commaList opener .closeParen (expression table n) k)
    fun _ again _ => commaListWith opener .closeParen (expression table n) (again ())
  elements : Staying src (fun _ => n) (fun k (_ : Unit) => moreElems (expression table n) k)
    fun _ again _ => moreElemsWith (expression table n) (again ())
  suffixes : Staying src (fun _ => n) (iterate (suffix? n (expression table n)))
    fun _ => iterateWith (suffix? n (expression table n))
  operands : Eating src (fun _ => n) (fun k (_ : Unit) => operand n (expression table n) k)
    fun _ again _ => operandWith n (expression table n) (again ())
  operators : ∀ start least, Staying src (fun _ => n)
    (iterate (infix? table (expressionFrom table n) start least))
    fun _ => iterateWith (infix? table (expressionFrom table n) start least)
  expressions : Eating src (fun k => k) (expressionFrom table) (expressionWith table)

theorem expressions_descend (table : Table) (src : String) (n : Nat) :
    ExpressionsDescend table src n where
  arguments _ := commaList_descends (expression_eats n)
  elements := .of_takes (Nat.zero_le 1) (fun _ _ => rfl) fun _ _ _ less more _ =>
    moreElemsWith_stays ((expression_eats n).mono (Nat.sub_le_sub_right less 1)) (more ())
  suffixes := iterate_descends fun _ _ => suffix?_steps (expression_eats n) (Nat.le_refl n)
  operands := .of_takes (Nat.le_refl 1) (fun _ _ => rfl) fun _ _ _ less more _ =>
    operandWith_eats ((expression_eats n).mono (Nat.sub_le_sub_right less 1)) less (more ())
  operators _ _ := iterate_descends fun _ _ => infix?_steps (expressionFrom_eats n)
  expressions := .of_takes (Nat.le_refl 1) (fun _ _ => rfl) fun _ _ _ less more _ =>
    expressionWith_eats more less

/-- Those of statements. -/
structure StatementsDescend (table : Table) (src : String) (n : Nat) : Prop where
  modifiers : Staying src (fun _ => n) (iterate modifier) fun _ => iterateWith modifier
  blocks : ∀ opener tail, Eating src (fun _ => n - 2)
    (fun k (_ : Unit) => bracedList opener (stmt table n tail) k)
    fun _ again _ => bracedListWith opener (stmt table n tail) (again ())
  branches : Eating src (fun _ => n - 1) (fun k (_ : Unit) => branch table n (stmt table n) k)
    fun _ again _ => branchWith table n (stmt table n) (again ())
  statements : Eating src (fun k => k - 1) (stmt table) (stmtWith table)

theorem statements_descend (table : Table) (src : String) (n : Nat) :
    StatementsDescend table src n where
  modifiers := iterate_descends fun _ _ => modifier_steps
  blocks _ tail := bracedList_descends (stmt_eats n tail)
  branches := .of_takes (Nat.le_refl 1) (fun _ _ => rfl) fun _ _ _ less more _ =>
    .of_pos fun some =>
      branchWith_eats (fun tail => (stmt_eats n tail).mono (by omega)) (by omega) (more ())
  statements := .of_takes (Nat.le_refl 1) (fun _ _ => rfl) fun _ _ _ less more _ =>
    .of_pos fun some => stmtWith_eats more (by omega)

/-- Those of declarations. -/
structure DeclarationsDescend (src : String) (g : Setting) : Prop where
  pieces : ∀ opener, Staying src (fun _ => g.steps)
    (fun k (p : Int × Int) => attributeArgs g.src opener k p.1 p.2)
    fun _ again p =>
      attributeArgsWith g.src opener (fun low depth => again (low, depth)) p.1 p.2
  attributes : Staying src (fun _ => g.steps) (fun k (_ : Unit) => many (attributeUse? g) k)
    fun _ again _ => manyWith (attributeUse? g) (again ())
  names : ∀ opener, Eating src (fun _ => g.steps)
    (fun k (_ : Unit) => commaList opener .closeParen name k)
    fun _ again _ => commaListWith opener .closeParen name (again ())
  directives : ∀ opener, Eating src (fun _ => g.steps)
    (fun k (_ : Unit) => bracedList opener (directive g) k)
    fun _ again _ => bracedListWith opener (directive g) (again ())
  paths : Staying src (fun _ => g.steps) (fun k (_ : Unit) => barePath k)
    fun _ again _ => barePathWith (again ())
  params : ∀ opener, Eating src (fun _ => g.steps)
    (fun k (_ : Unit) => commaList opener .closeParen (param g) k)
    fun _ again _ => commaListWith opener .closeParen (param g) (again ())
  functions : ∀ opener, Eating src (fun _ => g.steps - 1)
    (fun k (_ : Unit) => bracedList opener (funcHere g) k)
    fun _ again _ => bracedListWith opener (funcHere g) (again ())
  enumMembers : ∀ opener, Eating src (fun _ => g.steps)
    (fun k (_ : Unit) => commaList opener .closeBrace (enumMember g) k)
    fun _ again _ => commaListWith opener .closeBrace (enumMember g) (again ())
  bases : Staying src (fun _ => g.steps)
    (fun k (_ : Unit) => many (after? (acceptOp .comma) (type g.steps)) k)
    fun _ again _ => manyWith (after? (acceptOp .comma) (type g.steps)) (again ())
  scopes : ∀ opener n, Eating src (fun _ => min n (g.steps - 1))
    (fun k (_ : Unit) => bracedList opener (decl g n) k)
    fun _ again _ => bracedListWith opener (decl g n) (again ())
  classes : ∀ opener n, Eating src (fun _ => min n (g.steps - 1))
    (fun k (_ : Unit) => bracedList opener (decl g n >>= asItem) k)
    fun _ again _ => bracedListWith opener (decl g n >>= asItem) (again ())
  declarations : Recursion src 1 (fun d : Decl => d.info.span.start.Readable src)
    (fun _ => g.steps - 1) (fun k (_ : Unit) => decl g k) fun _ again _ => declWith g (again ())
  files : Staying src (fun _ => g.steps - 1) (fun k (_ : Unit) => decls g k)
    fun _ again _ => declsWith g (again ())

theorem declarations_descend (src : String) (g : Setting) : DeclarationsDescend src g where
  pieces _ := .of_takes (Nat.zero_le 1) (fun _ _ => rfl) fun _ _ _ _ more _ =>
    attributeArgsWith_stays fun low depth => more (low, depth)
  attributes := many_descends fun _ => attributeUse?_steps (Nat.le_refl _)
  names _ := commaList_descends name_eats
  directives _ := bracedList_descends (directive_eats (Nat.le_refl _))
  paths := .of_takes (Nat.zero_le 1) (fun _ _ => rfl) fun _ _ _ _ more _ =>
    barePathWith_stays (more ())
  params _ := commaList_descends (param_eats (Nat.le_refl _))
  functions _ := bracedList_descends <| .of_pos fun some => funcHere_eats (by omega)
  enumMembers _ := commaList_descends (enumMember_eats (Nat.le_refl _))
  bases := many_descends fun _ => furtherBase_steps (Nat.le_refl _)
  scopes _ n := bracedList_descends <| .of_pos fun some =>
    (decl_eats n (by omega) (by omega)).eats
  classes _ n := bracedList_descends <| .of_pos fun some =>
    (decl_eats n (by omega) (by omega)).member
  declarations := .of_takes (Nat.le_refl 1) (fun _ _ => rfl) fun _ _ _ less more _ =>
    .of_pos fun some => declWith_eats (more ()) (by omega)
  files := .of_takes (Nat.zero_le 1) (fun _ _ => rfl) fun _ _ _ less more _ =>
    .of_pos fun some => declsWith_stays (by omega) (more ())

theorem expect_stays {k : Token.Kind} : Stays src m (expect k) := by
  refine fun t => .current fun _ => ?_
  split
  · exact (advance_stays t).bind (Nat.le_refl _) fun _ _ _ => .pure trivial
  · exact unexpected_takes t

end Reader

/-! ### Texts -/

theorem Expr.read_ended (table : Table) (src : String) :
    ∀ e, Expr.read table src = .error e → e.Arises src := by
  refine (Reader.run_ended fun n t => ?_).2
  refine ((Reader.expression_eats n).stays t).bind (Nat.le_refl _) fun x _ t => ?_
  exact (Reader.expect_stays.discard t).bind (Nat.le_refl _) fun _ _ _ => .pure trivial

/-- Reading ends: a text gives a tree or an error, and never the one of steps that have run out; so
does a text read as an expression. Reading starts at a cursor in the text with the most left to read,
and none has more bytes unread than the text has. Each turn of each loop and recursion stays in the
text and goes on with fewer bytes unread, or fails. -/
theorem reading_ends (table : Table) (name src : String) :
    ((∃ file, File.read table name src = .ok file) ∨
      ∃ e, e ≠ .exhausted ∧ File.read table name src = .error e) ∧
    ((∃ x, Expr.read table src = .ok x) ∨
      ∃ e, e ≠ .exhausted ∧ Expr.read table src = .error e) ∧
    (∀ start, Cursor.checked { rest := (Token.stream src).tokens, stop := (Token.stream src).stop } =
      .ok start → start.On src ∧ ∀ c : Cursor, c.On src →
        c.weight ≤ start.weight ∧ 0 ≤ c.unread src ∧ c.unread src ≤ src.utf8ByteSize) ∧
    (∀ n, Reader.TypesDescend src n ∧ Reader.ExpressionsDescend table src n ∧
      Reader.StatementsDescend table src n) ∧
    ∀ cs n, Reader.DeclarationsDescend src ⟨table, cs, n⟩ := by
  have found {e : SyntaxError} (arises : e.Arises src) : e ≠ .exhausted := by
    rintro rfl
    exact arises
  refine ⟨?_, ?_, fun start first => ⟨.start first, fun c on => ⟨?_, on.unread_bounds⟩⟩, fun n =>
    ⟨Reader.types_descend src n, Reader.expressions_descend table src n,
      Reader.statements_descend table src n⟩, fun cs n => Reader.declarations_descend src _⟩
  · cases read : File.read table name src with
    | ok file => exact .inl ⟨file, rfl⟩
    | error e => exact .inr ⟨e, found ((File.read_ended table name src).2 e read), rfl⟩
  · cases read : Expr.read table src with
    | ok x => exact .inl ⟨x, rfl⟩
    | error e => exact .inr ⟨e, found (Expr.read_ended table src e read), rfl⟩
  · obtain ⟨rfl, -⟩ := Cursor.checked_ok first
    exact on.weight_le

/-- A type that ends in `>>`, of which one character is read at a time; no expression starts so. -/
theorem reading_ends_in_brackets :
    let src := "copy x: a<b<c>> = d;"
    (∃ file, File.read .default "a" src = .ok file) ∧
    (∃ e, e ≠ .exhausted ∧ Expr.read .default src = .error e) ∧
    ∃ start : Cursor, start.On src ∧ 0 ≤ start.unread src ∧ start.unread src ≤ 20 ∧
      Reader.TypesDescend src (start.weight + 2) := by
  intro src
  obtain ⟨file, expr, first, descend, -⟩ := reading_ends .default "a" src
  have read : (File.read .default "a" src).toOption.isSome = true := by
    rw [File.read_ofList]
    decide +kernel
  have unread : (Expr.read .default src).toOption.isSome = false := by
    rw [Expr.read, Reader.run_ofList]
    decide +kernel
  let front : Cursor := { rest := (Token.stream src).tokens, stop := (Token.stream src).stop }
  have start : front.checked.toOption.isSome = true := by
    dsimp only [front]
    rw [Token.stream_ofList]
    decide +kernel
  obtain ⟨f, found⟩ := Option.isSome_iff_exists.mp read
  obtain ⟨c, checked⟩ := Option.isSome_iff_exists.mp start
  obtain ⟨on, bounds⟩ := first c (toOption_eq_some checked)
  refine ⟨⟨f, toOption_eq_some found⟩, expr.resolve_left ?_, c, on, (bounds c on).2.1,
    (bounds c on).2.2, (descend (c.weight + 2)).1⟩
  rintro ⟨x, same⟩
  rw [same] at unread
  cases unread

end TastyLang
