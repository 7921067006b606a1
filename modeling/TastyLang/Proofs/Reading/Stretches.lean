import TastyLang.Proofs.Reading.Nesting

/-!
# Where reading leaves a tree

The tokens of a text stand one after the other. So a phrase lies between the place where the first of
its tokens starts and the one where the next token does (`Phrase.Lies`): each production puts the
stretches of its pieces together (`Phrase.Made.lies`).
-/

namespace TastyLang

theorem Pos.passes_iff {p q : Pos} {n : Nat} :
    p.Passes n q ↔ p.offset < q.offset ∧ p.line + n ≤ q.line :=
  ⟨fun h => ⟨h.offset, h.line⟩, fun h => ⟨h.1, h.2⟩⟩

@[simp] theorem Expr.breaksOf_none : breaksOf none = 0 := rfl
@[simp] theorem Expr.breaksOf_some (e : Expr) : breaksOf (some e) = e.breaks := rfl

attribute [local grind =] Pos.passes_iff Pos.Reaches Expr.breaksOf_none Expr.breaksOf_some

/-! ### Chains -/

namespace Chain

variable {α β : Type} {lies lies' : Pos → α → Pos → Prop} {p q : Pos} {xs ys : List α}

@[simp]
theorem nil_iff : Chain lies p [] q ↔ p = q := by
  constructor
  · rintro ⟨⟩
    rfl
  · rintro rfl
    exact .nil

@[simp]
theorem cons_iff {x : α} : Chain lies p (x :: xs) q ↔ ∃ m, lies p x m ∧ Chain lies m xs q := by
  constructor
  · rintro (_ | ⟨first, rest⟩)
    exact ⟨_, first, rest⟩
  · rintro ⟨m, first, rest⟩
    exact .cons first rest

@[simp]
theorem append_iff : Chain lies p (xs ++ ys) q ↔ ∃ m, Chain lies p xs m ∧ Chain lies m ys q := by
  induction xs generalizing p with
  | nil => simp
  | cons x xs ih =>
    simp only [List.cons_append, cons_iff, ih]
    exact ⟨fun ⟨a, first, b, rest, last⟩ => ⟨b, ⟨a, first, rest⟩, last⟩,
      fun ⟨b, ⟨a, first, rest⟩, last⟩ => ⟨a, first, b, rest, last⟩⟩

theorem mono (h : Chain lies p xs q) (imp : ∀ {p x q}, lies p x q → lies' p x q) :
    Chain lies' p xs q := by
  induction h with
  | nil => exact .nil
  | cons first _ ih => exact .cons (imp first) ih

theorem of_map {f : β → α} {xs : List β} (h : Chain lies p (xs.map f) q) :
    Chain (fun p x q => lies p (f x) q) p xs q := by
  induction xs generalizing p with
  | nil => exact nil_iff.mpr (nil_iff.mp h)
  | cons x xs ih =>
    obtain ⟨m, first, rest⟩ := cons_iff.mp h
    exact .cons first (ih rest)

theorem of_flatMap {f : β → List α} {xs : List β} (h : Chain lies p (xs.flatMap f) q) :
    Chain (fun p x q => Chain lies p (f x) q) p xs q := by
  induction xs generalizing p with
  | nil => exact nil_iff.mpr (nil_iff.mp h)
  | cons x xs ih =>
    rw [List.flatMap_cons] at h
    obtain ⟨m, first, rest⟩ := append_iff.mp h
    exact .cons first (ih rest)

end Chain

/-! ### Pieces -/

/-- The phrase lies in the text from `p` to `q`, where the next token starts. -/
def Phrase.Lies (p : Pos) (x : Phrase) (q : Pos) : Prop :=
  match x with
  | node (.file _) => True
  | node (.decl d) => Decl.Lies p d q
  | node (.var d) => d.info.Lies p ∧ VarDecl.Lies p d q
  | node (.func f) => FuncDecl.Lies p f q
  | node (.enum d) => EnumDecl.Lies p d q
  | node (.inject info) => info.Lies p ∧ p.Passes 0 q
  | node (.type t) => p.Passes 0 q ∧ t.Flat
  | node (.block b) => Block.Lies p b q
  | node (.stmt s) => Stmt.Lies p s q
  | node (.expr e) => Expr.Lies p e q
  | param x => x.span.start = p ∧ p.Passes (Expr.breaksOf x.value) q ∧ x.Flat
  | enumerator m => p.Passes 0 q ∧ m.Flat
  | use _ => p.Passes 0 q

namespace Piece

def Lies (p : Pos) (x : Piece) (q : Pos) : Prop :=
  match x with
  | sign _ => p.Passes 0 q
  | word k literal =>
    p.Passes (Text.breaks literal) q ∧ (k.isText = false → Text.OneLine literal)
  | part x => x.Lies p q

variable {p q m : Pos} {w ps : List Piece}

@[simp] theorem lies_op {o : Operator} : Lies p (op o) q ↔ p.Passes 0 q := .rfl
@[simp] theorem lies_key {k : Keyword} : Lies p (key k) q ↔ p.Passes 0 q := .rfl
@[simp] theorem lies_sign {k : Token.Kind} : Lies p (sign k) q ↔ p.Passes 0 q := .rfl
@[simp] theorem lies_expr {e : Expr} : Lies p (expr e) q ↔ e.Lies p q := .rfl
@[simp] theorem lies_type {t : TypeExpr} : Lies p (type t) q ↔ p.Passes 0 q ∧ t.Flat := .rfl
@[simp] theorem lies_block {b : Block} : Lies p (block b) q ↔ Block.Lies p b q := .rfl

theorem lies_stmt {s : Stmt} (h : Lies p (stmt s) q) : Stmt.Lies p s q := by
  cases s with
  | block b => exact .block h
  | _ => exact h

@[simp]
theorem lies_word {k : Token.Kind} {literal : String} : Lies p (word k literal) q ↔
    p.Passes (Text.breaks literal) q ∧ (k.isText = false → Text.OneLine literal) := .rfl

@[simp]
theorem lies_name {x : String} : Lies p (name x) q ↔ p.Passes 0 q ∧ Text.OneLine x := by
  constructor
  · rintro ⟨moves, one⟩
    exact ⟨moves.mono (Nat.zero_le _), one rfl⟩
  · rintro ⟨moves, one⟩
    exact ⟨one.symm ▸ moves, fun _ => one⟩

/-- The pieces of a list, each with the comma that may follow it. -/
abbrev Ended (p : Pos) (x : Piece) (q : Pos) : Prop := ∃ m, Lies p x m ∧ m.Reaches q

theorem Commas.chain (h : Commas ps w) (lie : Chain Lies p w q) : Chain Ended p ps q := by
  induction h generalizing p with
  | nil => exact Chain.nil_iff.mpr (Chain.nil_iff.mp lie)
  | last =>
    simp only [Chain.cons_iff, Chain.nil_iff, exists_eq_right] at lie ⊢
    exact ⟨q, lie, .refl q⟩
  | more _ ih =>
    simp only [Chain.cons_iff, lies_op] at lie
    obtain ⟨m, first, m', comma, rest⟩ := lie
    exact .cons ⟨m, first, comma.reaches⟩ (ih rest)

theorem Row.commas (h : Row ps w) : Commas ps w := by
  induction h with
  | last => exact .last
  | more _ ih => exact .more ih

theorem Commas.types {ts : List TypeExpr} (h : Commas (ts.map type) w) (lie : Chain Lies p w q) :
    p.Reaches q ∧ TypeExpr.FlatAll ts := by
  have each := (h.chain lie).of_map
  refine ⟨each.reaches fun ⟨m, moves, there⟩ => moves.1.reaches.trans there, ?_⟩
  refine TypeExpr.flatAll_iff.mpr fun t member => ?_
  obtain ⟨_, _, _, ⟨-, flat⟩, -⟩ := each.each member
  exact flat

theorem Commas.exprs {es : List Expr} (h : Commas (es.map expr) w) (lie : Chain Lies p w m)
    (last : m.Passes 0 q) : p.Passes (Expr.breaksIn es) q ∧ Expr.FlatAll es := by
  have each := (h.chain lie).of_map
  refine ⟨Expr.breaksIn_eq es ▸ each.passes (fun ⟨m, lies, there⟩ => lies.1.trans_reaches there) last, ?_⟩
  refine Expr.flatAll_iff.mpr fun e member => ?_
  obtain ⟨_, _, _, ⟨-, flat⟩, -⟩ := each.each member
  exact flat

theorem Dots.lies {x : String} (h : Dots x w) (lie : Chain Lies p w q) :
    p.Passes 0 q ∧ Text.OneLine x := by
  induction h generalizing q with
  | word => simpa using lie
  | dot _ ih =>
    simp only [Chain.append_iff, Chain.cons_iff, Chain.nil_iff, lies_op, lies_name, exists_eq_right] at lie
    obtain ⟨m, first, m', dot, moves, flat⟩ := lie
    obtain ⟨moves', flat'⟩ := ih first
    refine ⟨by grind, ?_⟩
    simp only [Text.OneLine, Text.breaks_append, flat', flat]
    rfl

theorem reaches (each : ∀ x ∈ phrases w, ∀ {p q}, Phrase.Lies p x q → p.Reaches q)
    (lie : Chain Lies p w q) : p.Reaches q := by
  induction w generalizing p with
  | nil =>
    obtain rfl := Chain.nil_iff.mp lie
    exact .refl p
  | cons x w ih =>
    obtain ⟨m, first, rest⟩ := Chain.cons_iff.mp lie
    cases x with
    | sign k => exact first.reaches.trans (ih each rest)
    | word k literal => exact first.1.reaches.trans (ih each rest)
    | part x =>
      rw [phrases_part, List.forall_mem_cons] at each
      exact (each.1 first).trans (ih each.2 rest)

theorem reaches_of_none (none : phrases w = []) (lie : Chain Lies p w q) : p.Reaches q :=
  reaches (fun x member => by rw [none] at member; cases member) lie

theorem Captured.lies {text : String} (h : Captured text w) (lie : Chain Lies p w q) :
    p.Passes (Text.breaks text) q := by
  cases h with
  | bare =>
    simp at lie
    grind
  | ended =>
    simp at lie
    grind

end Piece

/-! ### Types and expressions -/

section

open Piece

variable {p q : Pos} {w : List Piece}

attribute [local simp] bracketed braced

theorem TypeExpr.Made.lies {t : TypeExpr} (h : t.Made w) (lie : Chain Piece.Lies p w q) :
    p.Passes 0 q ∧ t.Flat := by
  cases h with
  | number =>
    simp only [Chain.cons_iff, Chain.nil_iff, lies_word, exists_eq_right] at lie
    exact ⟨lie.1.mono (Nat.zero_le _), lie.2 rfl, trivial⟩
  | named dots angled =>
    simp only [Chain.append_iff] at lie
    obtain ⟨m, ⟨m', word, args⟩, stars⟩ := lie
    obtain ⟨moves, one⟩ := dots.lies word
    have stars := reaches_of_none (phrases_stars _) stars
    cases angled with
    | none =>
      obtain rfl := Chain.nil_iff.mp args
      exact ⟨moves.trans_reaches stars, one, trivial⟩
    | some row =>
      simp at args
      obtain ⟨a, opens, b, types, closes⟩ := args
      obtain ⟨there, flat⟩ := row.commas.types types
      exact ⟨by grind, one, flat⟩
  | tuple commas =>
    simp at lie
    obtain ⟨a, opens, b, types, c, closes, stars⟩ := lie
    have stars := reaches_of_none (phrases_stars _) stars
    obtain ⟨there, flat⟩ := commas.types types
    exact ⟨by grind, flat⟩
  | @func _ _ result _ _ commas =>
    cases result with
    | none =>
      simp [led] at lie
      obtain ⟨a, word, b, opens, c, types, d, closes, stars⟩ := lie
      have stars := reaches_of_none (phrases_stars _) stars
      obtain ⟨there, flat⟩ := commas.types types
      exact ⟨by grind, flat⟩
    | some result =>
      simp [led] at lie
      obtain ⟨a, word, b, opens, c, types, d, closes, e, arrow, f, given, stars⟩ := lie
      have stars := reaches_of_none (phrases_stars _) stars
      obtain ⟨there, flat⟩ := commas.types types
      exact ⟨by grind, flat, given.2⟩

theorem Expr.Made.lies {e : Expr} (h : e.Made w) (lie : TastyLang.Chain Piece.Lies p w q) : e.Lies p q := by
  unfold Expr.Lies
  cases h with
  | literal kinds =>
    simp at lie
    exact ⟨lie.1, trivial⟩
  | @member _ _ _ _ k word =>
    have flat : k.isText = false := by
      rcases word with rfl | word
      · rfl
      · cases k <;> first | rfl | cases word
    simp [flat] at lie
    simp only [Expr.breaks, Expr.Flat]
    grind [Pos.Passes.mono]
  | ident | self | binary | leading | trailing | index | new | delete | tupleIndex | range | ternary
  | paren =>
    simp at lie
    simp only [Expr.breaks, Expr.breaksIn, Expr.Flat, Expr.FlatAll]
    grind
  | @cast _ _ kind _ =>
    have word (m m' : Pos) : TastyLang.Chain Piece.Lies m kind.pieces m' → m.Reaches m' :=
      reaches_of_none (by cases kind <;> rfl)
    simp at lie
    simp only [Expr.breaks, Expr.Flat]
    grind
  | call commas =>
    simp at lie
    obtain ⟨a, fn, b, opens, c, args, closes⟩ := lie
    have args := commas.exprs args closes
    simp only [Expr.breaks, Expr.Flat]
    grind
  | newWith commas =>
    simp at lie
    obtain ⟨a, new, b, type, c, opens, d, args, closes⟩ := lie
    have args := commas.exprs args closes
    simp only [Expr.breaks, Expr.Flat]
    grind
  | tuple commas =>
    simp at lie
    obtain ⟨a, opens, b, first, c, comma, d, more, closes⟩ := lie
    have more := commas.exprs more closes
    simp only [Expr.breaks, Expr.breaksIn, Expr.Flat, Expr.FlatAll]
    grind

/-! ### Statements -/

theorem Modifiers.Made.lies {ms : Modifiers} (h : ms.Made w) (lie : Chain Piece.Lies p w q) :
    p.Reaches q :=
  reaches_of_none h.phrases lie

theorem Storage.Given.lies {s : Storage} (h : s.Given w) (lie : Chain Piece.Lies p w q) :
    p.Reaches q :=
  reaches_of_none h.phrases lie

theorem Piece.value_lies {lead : Piece} {value : Option Expr}
    (lie : Chain Lies p (led lead (value.map Piece.expr)) q)
    (first : ∀ {p q : Pos}, Lies p lead q → p.Passes 0 q) :
    (∀ {m : Pos} {n : Nat}, m.Passes n p → m.Passes (n + Expr.breaksOf value) q) ∧
      ∀ v, value = some v → v.Flat := by
  cases value with
  | none =>
    obtain rfl := Chain.nil_iff.mp lie
    exact ⟨fun h => h, nofun⟩
  | some v =>
    simp [led] at lie
    simp only [Option.some.injEq, forall_eq']
    grind

theorem Piece.type_lies {k : Token.Kind} {type : Option TypeExpr}
    (lie : Chain Lies p (led (sign k) (type.map Piece.type)) q) :
    p.Reaches q ∧ ∀ t, type = some t → t.Flat := by
  cases type with
  | none =>
    obtain rfl := Chain.nil_iff.mp lie
    exact ⟨.refl p, nofun⟩
  | some t =>
    simp [led] at lie
    simp only [Option.some.injEq, forall_eq']
    grind

theorem VarDecl.Made.lies {d : VarDecl} (h : d.Made w) (start : d.info.span.start = p)
    (lie : Chain Piece.Lies p w q) : VarDecl.Lies p d q := by
  obtain ⟨modifiers, storage⟩ := h
  simp only [Chain.append_iff, Chain.cons_iff, Chain.nil_iff, exists_eq_right, lies_op, lies_name] at lie
  obtain ⟨a, ⟨b, ⟨c, ⟨d, ⟨e, ms, kept⟩, name⟩, type⟩, value⟩, closes⟩ := lie
  have ms := modifiers.lies ms
  have kept := Storage.Given.lies (.inl storage) kept
  obtain ⟨there, type⟩ := type_lies type
  obtain ⟨room, value⟩ := value_lies value id
  have room := room (m := p) (n := 0) (by grind)
  exact ⟨start, by grind, name.2, type, value⟩

theorem Stmt.Made.lies {s : Stmt} (h : s.Made w) (start : s.span.start = p)
    (fresh : (Phrase.node (.stmt s)).Fresh) (lie : Chain Piece.Lies p w q) : Stmt.Lies p s q := by
  cases h with
  | expr =>
    simp at lie
    obtain ⟨m, x, closes⟩ := lie
    exact .expr start ⟨x.1.trans_reaches closes.reaches, x.2⟩
  | decl =>
    simp at lie
    exact .decl start lie.2
  | @branch _ _ _ _ no =>
    simp at lie
    obtain ⟨a, word, b, cond, c, yes, rest⟩ := lie
    have cond := And.imp_left word.reaches.trans_passes cond
    cases no with
    | none =>
      obtain rfl := Chain.nil_iff.mp rest
      exact .branch start cond yes
    | some no =>
      simp [led] at rest
      obtain ⟨d, word, no⟩ := rest
      exact .branches start cond yes word (fresh _ rfl) (lies_stmt no)
  | forever =>
    simp at lie
    obtain ⟨a, word, body⟩ := lie
    exact .loop start word nofun body
  | loop =>
    simp at lie
    obtain ⟨a, word, b, ⟨moves, flat⟩, body⟩ := lie
    refine .loop start (word.reaches.trans_passes moves) ?_ body
    rintro _ ⟨⟩
    exact flat
  | @count _ _ _ low high step _ =>
    simp only [Chain.append_iff, Chain.cons_iff, Chain.nil_iff, exists_eq_right, lies_key, lies_name,
      lies_expr, lies_block] at lie
    obtain ⟨a, ⟨b, ⟨c, word, d, name, e, from_, f, lowest, g, to_, highest⟩, by_⟩, body⟩ := lie
    obtain ⟨room, flat⟩ := value_lies by_ fun h => (lies_name.mp h).1
    have room := room (m := p) (n := low.breaks + high.breaks) (by grind)
    exact .count start name.2 room lowest.2 highest.2 flat body
  | each storage =>
    simp only [Chain.append_iff, Chain.cons_iff, Chain.nil_iff, exists_eq_right, lies_key, lies_name,
      lies_expr, lies_block] at lie
    obtain ⟨a, ⟨b, word, kept⟩, c, name, d, in_, e, items, body⟩ := lie
    have kept := storage.lies kept
    exact .each start name.2 (by grind) body
  | @ret _ value _ _ =>
    cases value
    · simp at lie
      exact .ret start (by grind) nofun (fresh ▸ Exit.flat_none)
    · simp at lie
      exact .ret start (by grind) (by grind) (fresh ▸ Exit.flat_none)
  | trailing =>
    simp at lie
    exact .ret start lie.1 (by grind) (fresh ▸ Exit.flat_none)
  | brk =>
    simp at lie
    exact .brk start (by grind) (fresh ▸ Exit.flat_none)
  | cont =>
    simp at lie
    exact .cont start (by grind) (fresh ▸ Exit.flat_none)
  | inject captured => exact .inject start (captured.lies lie)

/-! ### Declarations -/

theorem TypeExpr.Extended.lies {ts : List TypeExpr} (h : TypeExpr.Extended ts w)
    (lie : Chain Piece.Lies p w q) : p.Reaches q ∧ TypeExpr.FlatAll ts := by
  cases h with
  | none =>
    obtain rfl := Chain.nil_iff.mp lie
    exact ⟨.refl p, trivial⟩
  | some row =>
    obtain ⟨m, word, types⟩ := Chain.cons_iff.mp lie
    obtain ⟨there, flat⟩ := row.commas.types types
    exact ⟨word.1.reaches.trans there, flat⟩

theorem Param.Made.lies {x : Param} (h : x.Made w) (start : x.span.start = p)
    (lie : Chain Piece.Lies p w q) : Phrase.Lies p (.param x) q := by
  obtain ⟨storage⟩ := h
  simp only [Chain.append_iff, Chain.cons_iff, Chain.nil_iff, exists_eq_right, lies_op, lies_name,
    lies_type] at lie
  obtain ⟨a, ⟨b, kept, c, name, d, colon, type⟩, value⟩ := lie
  have kept := storage.lies kept
  obtain ⟨room, value⟩ := value_lies value id
  have room := room (m := p) (n := 0) (by grind)
  exact ⟨start, by grind, name.2, type.2, value⟩

theorem EnumMember.Made.lies {m : EnumMember} (h : m.Made w) (lie : Chain Piece.Lies p w q) :
    Phrase.Lies p (.enumerator m) q := by
  obtain ⟨⟩ := h
  simp only [Chain.cons_iff, lies_name] at lie
  obtain ⟨a, name, value⟩ := lie
  obtain ⟨room, value⟩ := value_lies value id
  exact ⟨(room name.1).mono (Nat.zero_le _), name.2, value⟩

theorem FuncKind.Titled.lies {kind : FuncKind} {x : String} (h : kind.Titled x w)
    (lie : Chain Piece.Lies p w q) :
    p.Reaches q ∧ Text.OneLine x ∧ ∀ s, kind = .operator s → Text.OneLine s := by
  refine ⟨reaches_of_none h.phrases lie, ?_⟩
  cases h with
  | name other =>
    simp at lie
    exact ⟨lie.2, fun s same => absurd same (other s)⟩
  | operator =>
    refine ⟨by decide, ?_⟩
    rintro _ ⟨⟩
    refine Text.oneLine_concat fun s member => ?_
    obtain ⟨o, -, rfl⟩ := List.mem_map.mp member
    exact o.breaks_symbol

theorem FuncDecl.Made.lies {f : FuncDecl} (h : f.Made w) (info : f.info.Lies p)
    (lie : Chain Piece.Lies p w q) : f.Lies p q := by
  obtain ⟨modifiers, titled, commas⟩ := h
  simp only [bracketed, Chain.append_iff, Chain.cons_iff, Chain.nil_iff, exists_eq_right, lies_op,
    lies_key] at lie
  obtain ⟨a, ⟨b, ⟨c, lie, const⟩, result⟩, body⟩ := lie
  obtain ⟨d, ⟨d', ms, e, word, name⟩, e', ⟨g, opens, params⟩, closes⟩ := lie
  have ms := modifiers.lies ms
  obtain ⟨named, name, symbol⟩ := titled.lies name
  have const : c.Reaches b := reaches_of_none (by split <;> rfl) const
  obtain ⟨typed, result⟩ := type_lies result
  have each := (commas.chain params).of_map
  have front : p.Passes 0 g := by grind
  have room : p.Passes (Param.breaksIn f.params) c :=
    front.reaches.trans_passes
      (each.passes (fun ⟨m, lies, there⟩ => lies.2.1.trans_reaches there) closes)
  have places : Spread Param.offset p.offset f.params c.offset :=
    (each.spread fun ⟨m, lies, there⟩ => ⟨congrArg Pos.offset lies.1,
      (lies.2.1.mono (Nat.zero_le _)).trans_reaches there⟩).mono (by grind) (by grind)
  have flat (x : Param) (member : x ∈ f.params) : x.Flat := by
    obtain ⟨_, _, _, ⟨-, -, flat⟩, -⟩ := each.each member
    exact flat
  have room := room.trans_reaches (const.trans typed)
  have behind : c.Reaches a := const.trans typed
  cases some : f.body with
  | none =>
    rw [some] at body
    have last : a.Reaches q := body.reaches
    exact ⟨info, places.mono (Int.le_refl _) (behind.trans last).1, room.trans_reaches last, name,
      symbol, flat, result, by rw [some]; nofun⟩
  | some body' =>
    rw [some] at body
    have lies : body'.Lies a q := body
    have last := lies.passes.reaches
    refine ⟨info, places.mono (Int.le_refl _) (behind.trans last).1, room.trans_reaches last, name,
      symbol, flat, result, ?_⟩
    rw [some]
    rintro _ ⟨⟩
    exact ⟨a, room, lies⟩

theorem EnumDecl.Made.lies {d : EnumDecl} (h : d.Made w) (info : d.info.Lies p)
    (lie : Chain Piece.Lies p w q) : d.Lies p q := by
  obtain ⟨modifiers, commas⟩ := h
  simp only [braced, Chain.append_iff, Chain.cons_iff, Chain.nil_iff, exists_eq_right, lies_op,
    lies_key, lies_name] at lie
  obtain ⟨a, ⟨b, ms, c, word, name⟩, m, ⟨e, opens, members⟩, closes⟩ := lie
  have ms := modifiers.lies ms
  have each := (commas.chain members).of_map
  have there := each.reaches fun ⟨m, lies, there⟩ => lies.1.reaches.trans there
  refine ⟨info, by grind, name.2, fun m member => ?_⟩
  obtain ⟨_, _, _, ⟨-, flat⟩, -⟩ := each.each member
  exact flat

theorem DeclInfo.lies_phrases {info : DeclInfo} {n : Node}
    (lie : Chain Piece.Lies p ((info.phrases n).map part) q) :
    ∃ m, p.Reaches m ∧ Phrase.Lies m (.node n) q := by
  simp only [phrases, List.map_append, List.map_cons, List.map_nil, Chain.append_iff, Chain.cons_iff,
    Chain.nil_iff, exists_eq_right] at lie
  obtain ⟨m, uses, lies⟩ := lie
  exact ⟨m, uses.of_map.of_map.reaches Pos.Passes.reaches, lies⟩

theorem FuncDecl.lies_phrases {f : FuncDecl} (lie : Chain Piece.Lies p (f.phrases.map part) q) :
    ∃ m, p.Reaches m ∧ f.Lies m q :=
  DeclInfo.lies_phrases lie

theorem Item.lies_phrases {i : Item} (lie : Chain Piece.Lies p (i.phrases.map part) q) :
    i.Lies p q := by
  obtain ⟨m, behind, lies⟩ := DeclInfo.lies_phrases lie
  cases i with
  | var d => exact .var behind lies.1 lies.2
  | func f => exact .func behind lies
  | enum d => exact .enum behind lies
  | inject info text => exact .inject behind lies.1 lies.2

theorem Decl.Lies.front {d : Decl} {m : Pos} (behind : p.Reaches m) (h : d.Lies m q) : d.Lies p q := by
  cases h with
  | item lies =>
    refine .item ?_
    cases lies with
    | var reaches info lies => exact .var (behind.trans reaches) info lies
    | func reaches lies => exact .func (behind.trans reaches) lies
    | enum reaches lies => exact .enum (behind.trans reaches) lies
    | inject reaches info room => exact .inject (behind.trans reaches) info room
  | includes reaches info room => exact .includes (behind.trans reaches) info room
  | assume reaches info room name => exact .assume (behind.trans reaches) info room name
  | scope reaches info name opens inner line closes =>
    exact .scope (behind.trans reaches) info name opens inner line closes
  | cls reaches info name bases opens inner closes =>
    exact .cls (behind.trans reaches) info name bases opens inner closes
  | abstraction reaches info name target opens inner =>
    exact .abstraction (behind.trans reaches) info name target opens inner
  | refurbish reaches info target opens inner =>
    exact .refurbish (behind.trans reaches) info target opens inner
  | attributeDef reaches info name room => exact .attributeDef (behind.trans reaches) info name room

theorem Decl.lies_phrases {d : Decl} (lie : Chain Piece.Lies p (d.phrases.map part) q) :
    d.Lies p q := by
  cases d with
  | item i => exact .item (Item.lies_phrases lie)
  | _ =>
    obtain ⟨m, behind, lies⟩ := DeclInfo.lies_phrases lie
    exact lies.front behind

theorem lies_flatMap {α : Type} {f : α → List Phrase} {xs : List α}
    (lie : Chain Piece.Lies p ((xs.flatMap f).map part) q) :
    Chain (fun p x q => Chain Piece.Lies p ((f x).map part) q) p xs q := by
  rw [List.map_flatMap] at lie
  exact lie.of_flatMap

theorem FuncDecl.lies_braced {fs : List FuncDecl}
    (lie : Chain Piece.Lies p (braced ((fs.flatMap phrases).map part)) q) : FuncDecl.LieIn p fs q := by
  simp only [braced, Chain.append_iff, Chain.cons_iff, Chain.nil_iff, exists_eq_right, lies_op] at lie
  obtain ⟨m, ⟨m', opens, inner⟩, closes⟩ := lie
  exact ⟨m', m, opens, (lies_flatMap inner).mono FuncDecl.lies_phrases, closes⟩

theorem Decl.Made.lies {d : Decl} (h : d.Made w) (info : d.info.Lies p)
    (ends : ∀ v, w = v ++ [op .closeBrace] →
      ∃ m, Chain Piece.Lies p v m ∧ d.info.span.stop.line = m.line ∧ m.Passes 0 q)
    (lie : Chain Piece.Lies p w q) : d.Lies p q := by
  cases h with
  | @includes _ _ _ _ _ v _ modifiers locality path =>
    have locality : Piece.phrases v = [] := by
      simp only [localities, List.mem_cons, List.not_mem_nil, or_false] at locality
      rcases locality with rfl | rfl | rfl <;> rfl
    obtain ⟨m, front, semicolon⟩ := Chain.append_iff.mp lie
    have front := reaches_of_none (by simp [modifiers.phrases, locality, path.phrases]) front
    simp at semicolon
    exact .includes (.refl p) info (front.trans_passes semicolon)
  | assume modifiers dots =>
    simp only [Chain.append_iff, Chain.cons_iff, Chain.nil_iff, exists_eq_right, lies_op, lies_key,
      lies_name, lies_word] at lie
    obtain ⟨a, ⟨b, ms, c, word, name⟩, d, is, e, kind, closes⟩ := lie
    have ms := modifiers.lies ms
    obtain ⟨moves, name⟩ := dots.lies name
    exact .assume (.refl p) info (by grind) name
  | scope modifiers =>
    obtain ⟨m, front, line, closes⟩ := ends _ (List.append_assoc ..).symm
    simp only [Chain.append_iff, Chain.cons_iff, Chain.nil_iff, exists_eq_right, lies_op, lies_key,
      lies_name] at front
    obtain ⟨a, ⟨b, ms, c, word, name⟩, d, opens, inner⟩ := front
    have ms := modifiers.lies ms
    have inner := (lies_flatMap inner).mono Decl.lies_phrases
    exact .scope (.refl p) info name.2 (by grind) inner.decls line closes
  | cls modifiers extended =>
    simp only [braced, Chain.append_iff, Chain.cons_iff, Chain.nil_iff, exists_eq_right, lies_op, lies_key,
      lies_name] at lie
    obtain ⟨a, ⟨b, ⟨c, ms, d, word, name⟩, bases⟩, e, ⟨f, opens, inner⟩, closes⟩ := lie
    have ms := modifiers.lies ms
    obtain ⟨there, flat⟩ := extended.lies bases
    have inner := (lies_flatMap inner).mono Item.lies_phrases
    exact .cls (.refl p) info name.2 flat (by grind) inner closes
  | abstraction modifiers =>
    simp only [Chain.append_iff, Chain.cons_iff, Chain.nil_iff, exists_eq_right, lies_key,
      lies_name, lies_type] at lie
    obtain ⟨a, ⟨b, ms, c, word, d, name, e, becomes, type⟩, inner⟩ := lie
    have ms := modifiers.lies ms
    exact .abstraction (.refl p) info name.2 type.2 (by grind) (FuncDecl.lies_braced inner)
  | refurbish modifiers =>
    simp only [Chain.append_iff, Chain.cons_iff, Chain.nil_iff, exists_eq_right, lies_key,
      lies_type] at lie
    obtain ⟨a, ⟨b, ms, c, word, type⟩, inner⟩ := lie
    have ms := modifiers.lies ms
    exact .refurbish (.refl p) info type.2 (by grind) (FuncDecl.lies_braced inner)
  | attributeDef modifiers names listed =>
    simp only [braced, Chain.append_iff, Chain.cons_iff, Chain.nil_iff, exists_eq_right, lies_op, lies_key,
      lies_name] at lie
    obtain ⟨a, ⟨b, ⟨c, ms, d, word, name⟩, params⟩, e, ⟨f, opens, inner⟩, closes⟩ := lie
    have ms := modifiers.lies ms
    have params := reaches_of_none names.phrases params
    have inner := Piece.reaches (fun x member _ _ lies => by
      rw [AttributeUse.Listed.phrases listed] at member
      obtain ⟨u, -, rfl⟩ := List.mem_map.mp member
      exact Pos.Passes.reaches lies) inner
    exact .attributeDef (.refl p) info name.2 (by grind)

end

/-! ### Files -/

/-- Wherever the tokens of a phrase stand, the phrase lies between them and what follows. -/
structure Phrase.Laid (x : Phrase) (ts : List Token) : Prop where
  some : ∃ t us, ts = t :: us ∧ t.pos = x.span.start
  lies : ∀ {stop : Pos} {rest : List Token}, Token.Ordered stop (ts ++ rest) →
    x.Lies (Token.startOf stop (ts ++ rest)) (Token.startOf stop rest)

theorem Token.Ordered.behind {stop : Pos} {t : Token} {ts : List Token}
    (h : Token.Ordered stop (t :: ts)) :
    t.pos.Passes (Text.breaks t.literal) (Token.startOf stop ts) :=
  ⟨h.2.1.start, h.2.1.line⟩

namespace Piece

variable {stop : Pos} {w : List Piece} {ts rest : List Token}

theorem Filled.chain (h : Filled Phrase.Laid w ts) (ordered : Token.Ordered stop (ts ++ rest)) :
    Chain Lies (Token.startOf stop (ts ++ rest)) w (Token.startOf stop rest) := by
  induction w generalizing ts with
  | nil =>
    cases h
    exact .nil
  | cons x w ih =>
    cases h with
    | sign filled =>
      exact .cons (ordered.behind.mono (Nat.zero_le _)) (ih filled ordered.2.2)
    | word filled => exact .cons ⟨ordered.behind, ordered.1.even⟩ (ih filled ordered.2.2)
    | @part x _ us vs built filled =>
      rw [List.append_assoc] at ordered ⊢
      exact .cons (built.marked.lies ordered) (ih filled (ordered.suffix (List.suffix_append _ _)))

theorem Filled.chain_closed {o : Operator} {s : Span} (h : Filled Phrase.Laid (w ++ [op o]) ts)
    (ordered : Token.Ordered stop (ts ++ rest)) (covers : s.Covers ts) :
    ∃ m, Chain Lies (Token.startOf stop (ts ++ rest)) w m ∧ s.stop.line = m.line ∧
      m.Passes 0 (Token.startOf stop rest) := by
  obtain ⟨us, vs, rfl, filled, last⟩ := h.split
  obtain ⟨t, _, rfl, kind, last⟩ := last.sign_inv
  cases last
  have stop := covers.stop
  rw [List.getLast?_concat] at stop
  have line := congrArg Pos.line (Option.some.inj stop)
  rw [List.append_assoc] at ordered ⊢
  refine ⟨t.pos, filled.chain ordered, ?_, ?_⟩
  · rw [← line, Token.stop_eq (by rw [kind]; nofun)]
    rfl
  · exact (ordered.suffix (List.suffix_append _ _)).behind.mono (Nat.zero_le _)

end Piece

theorem Phrase.Made.laid {x : Phrase} {w : List Piece} {ts : List Token} (made : x.Made w)
    (filled : Piece.Filled Phrase.Laid w ts) (as : x.AsRead ts) : x.Laid ts := by
  obtain ⟨t, us, same, head⟩ := as.marked.head
  refine ⟨⟨t, us, same, head⟩, fun {stop rest} ordered => ?_⟩
  have start : x.span.start = Token.startOf stop (ts ++ rest) := by
    rw [same, ← head]
    rfl
  have lie := filled.chain ordered
  cases made with
  | node made =>
    cases made with
    | file => trivial
    | decl made =>
      refine made.lies ⟨start, as.fresh⟩ (fun v ends => ?_) lie
      subst ends
      exact filled.chain_closed ordered as.marked
    | var made => exact ⟨⟨start, as.fresh⟩, made.lies start lie⟩
    | func made => exact made.lies ⟨start, as.fresh⟩ lie
    | enum made => exact made.lies ⟨start, as.fresh⟩ lie
    | inject modifiers captured =>
      obtain ⟨m, ms, text⟩ := Chain.append_iff.mp lie
      have moves := (modifiers.lies ms).trans_passes (captured.lies text)
      exact ⟨⟨start, as.fresh⟩, moves.mono (Nat.zero_le _)⟩
    | type made => exact made.lies lie
    | @block b =>
      obtain ⟨m, inner, line, closes⟩ := filled.chain_closed ordered as.marked
      obtain ⟨m', opens, inner⟩ := Chain.cons_iff.mp inner
      obtain ⟨span, ss, owned⟩ := b
      obtain rfl : owned = [] := as.fresh
      exact .mk start opens (inner.of_map.mono Piece.lies_stmt).stmts line closes nofun
    | stmt made => exact made.lies start as.fresh lie
    | expr made => exact made.lies lie
  | param made => exact made.lies start lie
  | enumerator made => exact made.lies lie
  | use made =>
    -- the sign in front of its name is a token, and no phrase comes behind it
    obtain ⟨rest', same, only⟩ : ∃ rest', w = .op .atSign :: rest' ∧ Piece.phrases rest' = [] := by
      have none := (Phrase.Made.use made).phrases
      cases made with
      | bare => exact ⟨_, rfl, none⟩
      | applied => exact ⟨_, rfl, none⟩
    subst same
    obtain ⟨m, mark, more⟩ := Chain.cons_iff.mp lie
    exact Pos.Passes.trans_reaches mark (Piece.reaches_of_none only more)

theorem File.read_lies {table : Table} {name src : String} {file : File}
    (h : File.read table name src = .ok file) : ∃ p q, Decl.LieIn p file.decls q := by
  obtain ⟨n, c, c', starts, h⟩ := Reader.run_starts h
  obtain ⟨_, _, read, h⟩ := bind_ok h
  obtain ⟨rfl, rfl⟩ := Reader.pos_ok read
  obtain ⟨ds, c₁, read, h⟩ := bind_ok h
  obtain ⟨-, ⟨ts, feeds, filled⟩, -⟩ := Reader.decls_since n starts.ordered (.refl c) read
  obtain ⟨_, _, read, h⟩ := bind_ok h
  obtain ⟨rfl, rfl⟩ := Reader.pos_ok read
  obtain ⟨rfl, rfl⟩ := pure_ok h
  have laid := filled.rebuild fun made filled as => made.laid filled as
  have chain := laid.chain (feeds.halved.ordered starts.ordered).1
  exact ⟨_, _, ((lies_flatMap chain).mono Decl.lies_phrases).decls⟩

end TastyLang
