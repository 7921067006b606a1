import TastyLang.Proofs.Reading.DerivedExpressions
import TastyLang.Proofs.Reading.Faults

/-!
# Reading statements and declarations follows the grammar

Modifiers are read before it is known what stands behind them; a declaration goes on from them.
-/

namespace TastyLang.Reader

open Cursor Piece

variable {α β : Type} {c₀ : Cursor} {u v w : List Piece}

/-! ### Statements -/

theorem modifiers_spells (n : Nat) : Spells (modifiers n) Modifiers.Made := by
  refine .of fun c₀ => .begins ?_
  refine .weaken (.iterates (fun ms c => ∃ v, Modifiers.Made ms v ∧ c₀.Since v c)
    (fun ms => .some_of fun v made => ?_) n {}) ?_
  rotate_left
  · exact fun c since => ⟨[], ⟨[], rfl, rfl⟩, since⟩
  · refine .current fun t => ?_
    split
    · next m kind =>
      refine (advance_since (kind ▸ nofun) (filled_sign kind)).bind fun _ => ?_
      obtain ⟨words, rfl, rfl⟩ := made
      exact .pure fun c since => ⟨_, ⟨words ++ [m], by simp, by simp⟩, since⟩
    · exact .pure fun c since => ⟨v, made, since.1⟩

theorem storage_spells : Spells storage Storage.Made := by
  refine .of fun c₀ => .at_current ?_
  split
  · next s found =>
    have token : c₀.current.kind ≠ .eof := fun same => by simp [Storage.ofToken?, same] at found
    refine (advance_at token (filled_word rfl)).bind fun _ => ?_
    exact .pure fun c since => ⟨_, ⟨_, found, rfl⟩, since⟩
  · exact .fails fun _ _ => failAt_ok

theorem storage?_spells : Spells storage? Storage.Given := by
  refine .of fun c₀ => .at_current ?_
  split
  · refine (storage_spells _ _).begins.after_strengthen ?_
    rintro s c ⟨v, made, since⟩
    exact ⟨v, .inl made, since⟩
  · exact .begins (.pure fun c since => ⟨_, .inr ⟨rfl, rfl⟩, since⟩)

theorem type?_since {n : Nat} :
    Lays (c₀.Since w) (after? (acceptOp .colon) (type n)) fun t =>
      c₀.Since (w ++ led (op .colon) (t.map Piece.type)) :=
  after?_since (fun _ => acceptOp_since) (type_writes n)

theorem value_since {table : Table} {n : Nat} :
    Lays (c₀.Since w) (after? (acceptOp .assign) (expression table n)) fun x =>
      c₀.Since (w ++ led (op .assign) (x.map Piece.expr)) :=
  after?_since (fun _ => acceptOp_since) (expression_writes table n)

theorem varDecl_since {table : Table} {n : Nat} {ms : Modifiers} {attrs : List AttributeUse}
    (modifiers : ms.Made u) :
    Lays (c₀.Since u) (varDecl table n c₀.pos ms attrs) fun d c =>
      d.info.attrs = attrs ∧ c₀.Since [part (.node (.var d))] c := by
  refine (storage_spells _ _).bind fun s => .some_of fun v storage => ?_
  refine (name_writes _ _).bind fun x => type?_since.bind fun t => value_since.bind fun x => ?_
  refine skip_since.bind fun _ => ?_
  exact finish_here (fun _ => .node (.var (.mk modifiers storage))) (fun _ _ since => ⟨rfl, since⟩)
    (by simp) fun _ => ⟨rfl, fun _ => rfl, .empty⟩

theorem captured_ne_nil {text : String} (h : Captured text w) : w ≠ [] := by
  cases h <;> simp

theorem injected_since :
    Lays (fun c => c₀.Since w c ∧ c.current.kind = .keyword .kInject) injected fun text c =>
      ∃ v, Captured text v ∧ c₀.Since (w ++ v) c := by
  refine (advance_kind (by nofun)).bind fun _ => (expect_word (by nofun)).bind fun t => ?_
  refine (discard_since acceptOp_since).bind fun _ => .for_some fun ended => ?_
  refine .pure fun c since => ?_
  rw [List.append_assoc, List.append_assoc] at since
  cases ended with
  | true => exact ⟨_, .ended, since⟩
  | false => exact ⟨_, .bare, since⟩

section

variable {table : Table} {n : Nat} {stmt : Bool → Reader Stmt}
  (each : ∀ tail, Writes (stmt tail) Piece.stmt)

include each

theorem blockWith_writes (tail : Bool) : Writes (blockWith n stmt tail) Piece.block := by
  refine .of fun c₀ => expectOp_at.bind fun opener => .known fun here => ?_
  refine (bracedList_spells (each tail).spells n _ _).bind fun ss => .some_of fun v good => ?_
  obtain ⟨u, all, rfl⟩ := good
  obtain rfl := Each.eq_map all
  subst here
  exact finish_here (fun _ => .node .block) (fun _ _ since => since) (by simp)
    fun _ => ⟨rfl, fun _ => rfl, rfl⟩

omit each in
theorem branch_alternative (k : Nat) {c c' : Cursor} {s : Stmt}
    (h : branch table n stmt k c = .ok (s, c')) : s.isAlternative = true := by
  cases k with
  | zero => exact absurd h exhausted_ok
  | succ k =>
    obtain ⟨t, _, -, h⟩ := bind_ok h
    obtain ⟨_, _, -, h⟩ := bind_ok h
    obtain ⟨cond, _, -, h⟩ := bind_ok h
    obtain ⟨yes, _, -, h⟩ := bind_ok h
    obtain ⟨no, _, -, h⟩ := bind_ok h
    obtain ⟨rfl, -⟩ := finish_ok h
    rfl

omit each in
theorem else_alternative (k : Nat) {lead : Reader Bool} {c c' : Cursor} {r : Option Stmt}
    (h : after? lead (alternative n stmt (branch table n stmt k)) c = .ok (r, c')) :
    ∀ s, r = some s → s.isAlternative = true := by
  rintro s rfl
  obtain ⟨found, _, -, h⟩ := bind_ok h
  split at h
  · obtain ⟨s, h, same⟩ := map_ok h
    cases same
    obtain ⟨t, _, -, h⟩ := bind_ok h
    generalize t.kind = kind at h
    split at h
    · exact branch_alternative k h
    · exact branch_alternative k h
    · obtain ⟨b, -, rfl⟩ := map_ok h
      rfl
  · cases h

theorem alternative_writes {branch : Reader Stmt}
    (branches : ∀ c₀ : Cursor, c₀.current.kind ∈ [.keyword .kIf, .keyword .kUnless] →
      Lays (· = c₀) branch fun s => c₀.Since [Piece.stmt s]) :
    Writes (alternative n stmt branch) Piece.stmt := by
  refine .of fun c₀ => .at_current ?_
  split
  · next kind => exact branches c₀ (kind ▸ List.mem_cons_self)
  · next kind => exact branches c₀ (kind ▸ List.mem_cons_of_mem _ List.mem_cons_self)
  · exact .begins ((blockWith_writes each false _ _).map fun _ _ since => since)

theorem branch_since (k : Nat) (c₀ : Cursor)
    (kind : c₀.current.kind ∈ [.keyword .kIf, .keyword .kUnless]) :
    Lays (· = c₀) (branch table n stmt k) fun s => c₀.Since [Piece.stmt s] := by
  induction k generalizing c₀ with
  | zero => exact .fails fun _ _ => exhausted_ok
  | succ k ih =>
    refine .at_current ?_
    have lead : c₀.current.kind =
        .keyword (if c₀.current.kind == .keyword .kUnless then .kUnless else .kIf) := by
      rcases List.mem_cons.mp kind with kind | kind
      · rw [kind]
        rfl
      · rw [List.mem_singleton.mp kind]
        rfl
    refine (advance_at (lead ▸ nofun) (filled_sign lead)).bind fun _ => ?_
    refine (expression_writes table n _ _).bind fun cond => ?_
    refine (blockWith_writes each false _ _).bind fun yes => ?_
    refine Lays.bind (.also (after?_since (fun _ => accept_since (k := .keyword .kElse) nofun)
      (alternative_writes each ih)) (else_alternative k)) fun no => .known fun alternative => ?_
    exact finish_here (fun _ => .node (.stmt .branch)) (fun _ _ since => since) (by simp)
      fun _ => ⟨rfl, fun _ => rfl, alternative⟩

theorem conditional_since {negate : Bool}
    (kind : c₀.current.kind = .keyword (if negate then .kUntil else .kWhile)) :
    Lays (· = c₀) (conditional table n stmt c₀.current negate) fun s =>
      c₀.Since [Piece.stmt s] := by
  refine (advance_at (kind ▸ nofun) (filled_sign kind)).bind fun _ => ?_
  refine (expression_writes table n _ _).bind fun cond => ?_
  refine (blockWith_writes each false _ _).bind fun b => ?_
  exact finish_here (fun _ => .node (.stmt .loop)) (fun _ _ since => since) (by simp)
    fun _ => ⟨rfl, fun _ => rfl, trivial⟩

theorem counting_since {kind : CountKind} (lead : c₀.current.kind = .keyword kind.keyword) :
    Lays (· = c₀) (counting table n stmt c₀.current kind) fun s => c₀.Since [Piece.stmt s] := by
  refine (advance_at (lead ▸ nofun) (filled_sign lead)).bind fun _ => ?_
  refine (name_writes _ _).bind fun x => expectWord_since.bind fun _ => ?_
  refine (expression_writes table n _ _).bind fun low => expectWord_since.bind fun _ => ?_
  refine (expression_writes table n _ _).bind fun high => ?_
  refine (after?_since (fun _ => acceptWord_since) (expression_writes table n)).bind fun step => ?_
  refine (blockWith_writes each false _ _).bind fun b => ?_
  exact finish_here (fun _ => .node (.stmt .count)) (fun _ _ since => since) (by simp)
    fun _ => ⟨rfl, fun _ => rfl, trivial⟩

end

theorem returned?_since {table : Table} {n : Nat} :
    Lays (c₀.Since w) (returned? table n) fun x c =>
      c₀.Since (w ++ (x.map Piece.expr).toList) c := by
  refine (Lays.check _).bind fun ended => ?_
  cases ended with
  | true => exact .pure fun c since => by rwa [Option.map_none, Option.toList_none, List.append_nil]
  | false => exact (expression_writes table n _ _).map fun _ _ since => since

theorem simple_writes {table : Table} {n : Nat} {tail : Bool} :
    Writes (simple table n tail) Piece.stmt := by
  refine .of fun c₀ => .at_current (.begins ?_)
  split
  · refine (modifiers_spells n _ _).bind fun ms => .some_of fun v modifiers => ?_
    refine .current fun t => .drop ?_
    split
    · refine (varDecl_since modifiers).bind fun d => .true_of ?_
      exact finish_here (fun _ => .node (.stmt .decl)) (fun _ _ since => since) (by simp)
        fun _ => ⟨rfl, fun _ => rfl, trivial⟩
    · exact .fails_first fun _ _ => unexpected_ok
  · refine (expression_writes table n _ _).bind fun x => (Lays.check _).bind fun closed => ?_
    split
    · exact finish_here (fun _ => .node (.stmt .trailing)) (fun _ _ since => since) (by simp)
        fun _ => ⟨rfl, fun _ => rfl, rfl⟩
    · refine skip_since.bind fun _ => ?_
      exact finish_here (fun _ => .node (.stmt .expr)) (fun _ _ since => since) (by simp)
        fun _ => ⟨rfl, fun _ => rfl, trivial⟩

theorem stmt_writes (table : Table) (n : Nat) (tail : Bool) :
    Writes (stmt table n tail) Piece.stmt := by
  induction n generalizing tail with
  | zero => exact fun _ _ => .fails fun _ _ => exhausted_ok
  | succ n ih =>
    refine .of fun c₀ => .at_current ?_
    split
    · exact .begins ((blockWith_writes ih false _ _).map fun _ _ since => since)
    · next kind => exact branch_since ih n c₀ (kind ▸ List.mem_cons_self)
    · next kind => exact branch_since ih n c₀ (kind ▸ List.mem_cons_of_mem _ List.mem_cons_self)
    · next kind => exact conditional_since ih kind
    · next kind => exact conditional_since ih kind
    · next kind =>
      refine (advance_at (kind ▸ nofun) (filled_sign kind)).bind fun _ => ?_
      refine (blockWith_writes ih false _ _).bind fun b => ?_
      exact finish_here (fun _ => .node (.stmt .forever)) (fun _ _ since => since) (by simp)
        fun _ => ⟨rfl, fun _ => rfl, trivial⟩
    · next kind => exact counting_since ih kind
    · next kind => exact counting_since ih kind
    · next kind => exact counting_since ih kind
    · next kind => exact counting_since ih kind
    · next kind =>
      refine (advance_at (kind ▸ nofun) (filled_sign kind)).bind fun _ => ?_
      refine (storage?_spells _ _).bind fun s => .some_of fun v storage => ?_
      refine (name_writes _ _).bind fun x => expectWord_since.bind fun _ => ?_
      refine (expression_writes table n _ _).bind fun items => ?_
      refine (blockWith_writes ih false _ _).bind fun b => ?_
      refine .respell (key .kFor :: v
        ++ [Piece.name x, Piece.name "in", Piece.expr items, Piece.block b]) (by simp [key]) ?_
      exact finish_here (fun _ => .node (.stmt (.each storage))) (fun _ _ since => since) (by simp)
        fun _ => ⟨rfl, fun _ => rfl, trivial⟩
    · next kind =>
      refine (advance_at (kind ▸ nofun) (filled_sign kind)).bind fun _ => ?_
      refine returned?_since.bind fun x => skip_since.bind fun _ => ?_
      exact finish_here (fun _ => .node (.stmt .ret)) (fun _ _ since => since) (by simp)
        fun _ => ⟨rfl, fun _ => rfl, rfl⟩
    · next kind =>
      refine (advance_at (kind ▸ nofun) (filled_sign kind)).bind fun _ => skip_since.bind fun _ => ?_
      exact finish_here (fun _ => .node (.stmt .brk)) (fun _ _ since => since) (by simp)
        fun _ => ⟨rfl, fun _ => rfl, rfl⟩
    · next kind =>
      refine (advance_at (kind ▸ nofun) (filled_sign kind)).bind fun _ => skip_since.bind fun _ => ?_
      exact finish_here (fun _ => .node (.stmt .cont)) (fun _ _ since => since) (by simp)
        fun _ => ⟨rfl, fun _ => rfl, rfl⟩
    · next kind =>
      refine .begins_at kind (injected_since.bind fun text => .some_of fun v captured => ?_)
      exact finish_here (fun _ => .node (.stmt (.inject captured))) (fun _ _ since => since)
        (captured_ne_nil captured) fun _ => ⟨rfl, fun _ => rfl, trivial⟩
    · exact (simple_writes _ _).begins

theorem body_writes (table : Table) (n : Nat) (tail : Bool) :
    Writes (body table n tail) Piece.block :=
  blockWith_writes (stmt_writes table n) tail

/-! ### Attributes -/

variable {g : Setting}

/-- Any tokens up to the closing parenthesis, which is not read. -/
theorem attributeArgs_since {src : List Char} {opener : Token} {n : Nat} {low depth : Int} :
    Lays (c₀.Since w) (attributeArgs src opener n low depth) fun _ c =>
      ∃ ks : List Token.Kind, c₀.Since (w ++ ks.map sign) c ∧ c.current.kind = .op .closeParen := by
  induction n generalizing low depth w with
  | zero => exact .fails fun _ _ => exhausted_ok
  | succ n ih =>
    have goes {k : Token.Kind} {low depth : Int} : Lays (c₀.Since (w ++ [sign k]))
        (attributeArgs src opener n low depth) fun _ c => ∃ ks : List Token.Kind,
          c₀.Since (w ++ ks.map sign) c ∧ c.current.kind = .op .closeParen := by
      refine ih.after_strengthen ?_
      rintro _ c ⟨ks, since, closed⟩
      exact ⟨k :: ks, by simpa using since, closed⟩
    refine .current fun t => ?_
    dsimp only
    split
    · exact .fails fun _ _ => unclosed_ok
    · next kind => exact (advance_since (kind ▸ nofun) (filled_sign kind)).bind fun _ => goes
    · next kind => exact (advance_since (kind ▸ nofun) (filled_sign kind)).bind fun _ => goes
    · next kind => exact (advance_since (kind ▸ nofun) (filled_sign kind)).bind fun _ => goes
    · next kind =>
      split
      · exact .pure fun c h => ⟨[], by simpa using h.1, h.2 ▸ kind⟩
      · exact (advance_since (kind ▸ nofun) (filled_sign kind)).bind fun _ => goes
    · next kind => exact (advance_since (kind ▸ nofun) (filled_sign kind)).bind fun _ => goes
    · next kind => exact (advance_since (kind ▸ nofun) (filled_sign kind)).bind fun _ => goes
    · next kind =>
      refine (advance_since (kind ▸ nofun) (filled_sign kind)).bind fun _ => ?_
      split
      · refine .pos fun p => .drop (goes.bind fun xs => ?_)
        exact .pure fun c h => h
      · exact goes
    · next eof _ _ _ _ _ _ _ =>
      exact (advance_since eof (filled_sign rfl)).bind fun _ => goes

theorem attributeArgList_spells : Spells (attributeArgList g) fun _ v =>
    v = [] ∨ ∃ ks : List Token.Kind, v = bracketed (ks.map sign) := by
  refine .of fun c₀ => .at_current ?_
  split
  · next kind =>
    have kind := eq_of_beq kind
    refine (advance_at (kind ▸ nofun) (filled_sign kind)).bind fun _ => .pos fun p => .drop ?_
    refine attributeArgs_since.bind fun xs => .for_some fun ks => ?_
    refine (advance_kind (by nofun)).bind fun _ => ?_
    exact .pure fun c since => ⟨_, .inr ⟨ks, rfl⟩, since⟩
  · exact .begins (.pure fun c since => ⟨[], .inl rfl, since⟩)

theorem requireArity_lays {pre : Cursor → Prop} {p : Pos} {x : String} {got : Nat} :
    Lays pre (requireArity p x got) fun _ => pre := by
  intro c c' u ordered holds h
  obtain rfl := requireArity_ok h
  exact ⟨ordered, holds⟩

theorem attributeUse_writes : Writes (attributeUse g) fun u => part (.use u) := by
  refine .of fun c₀ => .at_pos (.begins (skip_since.bind fun _ => .pos fun p => .drop ?_))
  refine (name_writes _ _).bind fun x => (attributeArgList_spells _ _).bind fun xs => ?_
  refine .some_of fun v args => requireArity_lays.bind fun _ => ?_
  rcases args with rfl | ⟨ks, rfl⟩
  · exact finish_here (fun _ => .use .bare) (fun _ _ since => since) (by simp)
      fun _ => ⟨rfl, fun _ => rfl, trivial⟩
  · exact finish_here (fun _ => .use .applied) (fun _ _ since => since) (by simp)
      fun _ => ⟨rfl, fun _ => rfl, trivial⟩

theorem attributeUses_spells : Spells (attributeUses g) fun us v => v = (us.map .use).map part := by
  have item : Spells (attributeUse? g) fun r v =>
      (r = none ∧ v = []) ∨ ∃ u, r = some u ∧ v = [part (.use u)] := by
    refine .of fun c₀ => .begins ((Lays.check _).bind fun here => ?_)
    cases here with
    | true =>
      exact (attributeUse_writes _ _).map fun u c since => ⟨_, .inr ⟨u, rfl, rfl⟩, since⟩
    | false => exact .pure fun c since => ⟨_, .inl ⟨rfl, rfl⟩, since⟩
  exact (many_spells item g.steps).mono fun us v all => by
    rw [Each.eq_map all, List.map_map]
    rfl

theorem attributeParams_spells : Spells (attributeParams g) Names := by
  refine .of fun c₀ => .at_current ?_
  split
  · next kind =>
    have kind := eq_of_beq kind
    refine (advance_at (kind ▸ nofun) (filled_sign kind)).bind fun _ => ?_
    refine (commaList_spells name_writes g.steps _ _).after_strengthen ?_
    rintro xs c ⟨v, ⟨u, commas, rfl⟩, since⟩
    exact ⟨_, .inr ⟨u, commas, rfl⟩, since⟩
  · exact .begins (.pure fun c since => ⟨[], .inl ⟨rfl, rfl⟩, since⟩)

theorem directive_spells : Spells (directive g) AttributeUse.Listed := by
  refine .of fun c₀ => .begins ((Lays.check _).bind fun here => ?_)
  split
  · refine (attributeUse_writes _ _).bind fun u => ?_
    refine (discard_since acceptOp_since).bind fun _ => .for_some fun ended => ?_
    refine .pure fun c since => ?_
    cases ended with
    | true => exact ⟨_, .inr rfl, since⟩
    | false => exact ⟨_, .inl rfl, since⟩
  · exact .fails_first fun _ _ => unexpected_ok

/-! ### Functions -/

def headed (attrs : List AttributeUse) (ms : Modifiers) (span : Span) : DeclInfo :=
  { span, attrs, modifiers := ms }

theorem param_writes : Writes (param g) fun p => part (.param p) := by
  refine .of fun c₀ => .at_pos (.begins ?_)
  refine (storage?_spells _ _).bind fun s => .some_of fun v storage => ?_
  refine (name_writes _ _).bind fun x => skip_since.bind fun _ => ?_
  refine (type_writes g.steps _ _).bind fun t => value_since.bind fun value => ?_
  refine .respell (v ++ [Piece.name x, op .colon, Piece.type t]
    ++ led (op .assign) (value.map Piece.expr)) (by simp) ?_
  exact finish_here (fun _ => .param (.mk storage)) (fun _ _ since => since) (by simp)
    fun _ => ⟨rfl, fun _ => rfl, trivial⟩

theorem operatorSymbol_spells : Spells operatorSymbol fun symbol v =>
    ∃ os : List Operator, symbol = String.join (os.map Operator.symbol) ∧ v = os.map op := by
  refine .of fun c₀ => .at_symbol fun symbol => .at_current (.at_here ?_)
  refine nextKind_known fun k => ?_
  split
  · next kind =>
    refine (advance_next (kind ▸ nofun) (by nofun) (filled_sign kind)).bind fun _ => ?_
    refine (advance_kind (by nofun)).bind fun _ => ?_
    exact .pure fun c since => ⟨_, ⟨[.openParen, .closeParen], rfl, rfl⟩, since⟩
  · next kind =>
    refine (advance_next (kind ▸ nofun) (by nofun) (filled_sign kind)).bind fun _ => ?_
    refine (advance_kind (by nofun)).bind fun _ => ?_
    exact .pure fun c since => ⟨_, ⟨[.openBracket, .closeBracket], rfl, rfl⟩, since⟩
  · exact .fails fun _ _ => unexpected_ok
  · exact .fails fun _ _ => unexpected_ok
  · next o _ _ kind _ _ =>
    refine .drop ((advance_since (kind ▸ nofun) (filled_sign kind)).bind fun _ => ?_)
    refine .pure fun c since => ⟨_, ⟨[o], ?_, rfl⟩, since⟩
    rw [symbol o kind]
    simp [String.join]
  · exact .fails fun _ _ => unexpected_ok

theorem funcName_spells : Spells funcName fun r v => r.2.Titled r.1 v := by
  refine .of fun c₀ => .begins ((accept_since (by nofun)).bind fun found => ?_)
  cases found with
  | true =>
    refine (operatorSymbol_spells _ _).bind fun symbol => .some_of fun v ⟨os, same, pieces⟩ => ?_
    subst same pieces
    exact .pure fun c since => ⟨_, .operator, since⟩
  | false =>
    exact (name_writes _ _).bind fun x => .pure fun c since => ⟨_, .name nofun, since⟩

theorem bodyHere_since {tail : Bool} :
    Lays (c₀.Since w) (bodyHere g tail) fun b =>
      c₀.Since (w ++ [(b.map Piece.block).getD (op .semicolon)]) := by
  refine (Lays.check _).bind fun opens => ?_
  cases opens with
  | true => exact (body_writes g.table g.steps tail _ _).map fun _ _ since => since
  | false => exact skip_since.bind fun _ => .pure fun c since => since

theorem attributed {r : Reader α} {attrs : List AttributeUse} (info : α → DeclInfo)
    (node : α → Node) (h : ∀ c₁, Lays (· = c₁) r fun a c =>
      (info a).attrs = attrs ∧ c₁.Since [part (.node (node a))] c) :
    Lays (c₀.Since ((attrs.map .use).map part)) r fun a c =>
      ∃ v, v = ((info a).phrases (node a)).map part ∧ c₀.Since v c := by
  refine Lays.after_strengthen (.nested (fun a => part (.node (node a))) h) ?_
  rintro a c ⟨same, since⟩
  refine ⟨_, rfl, ?_⟩
  rw [DeclInfo.phrases, same, List.map_append]
  exact since

theorem func_since {attrs : List AttributeUse} {ms : Modifiers} (modifiers : ms.Made u) :
    Lays (c₀.Since u) (func g (headed attrs ms) c₀.pos) fun f c =>
      f.info.attrs = attrs ∧ c₀.Since [part (.node (.func f))] c := by
  refine (discard_since (expect_since (by nofun))).bind fun _ => .for_some fun _ => ?_
  refine (funcName_spells _ _).bind fun r => .some_of fun v titled => ?_
  refine expectOp_since.bind fun opener => ?_
  refine (commaList_spells param_writes g.steps _ _).bind fun params => .some_of fun v good => ?_
  obtain ⟨w, commas, rfl⟩ := good
  refine (accept_since (by nofun)).bind fun constant => ?_
  refine (after?_since (fun _ => acceptOp_since) (type_writes g.steps)).bind fun result => ?_
  refine bodyHere_since.bind fun b => ?_
  refine .respell (u ++ key .kFn :: v ++ bracketed w ++ given (sign (.modifier .const)) constant
    ++ led (op .arrow) (result.map Piece.type) ++ [(b.map Piece.block).getD (op .semicolon)])
    (by simp [bracketed, key]) ?_
  exact finish_here (fun _ => .node (.func (.mk modifiers titled commas)))
    (fun _ _ since => ⟨rfl, since⟩) (by simp) fun _ => ⟨rfl, fun _ => rfl, .empty⟩

theorem titled_rename {kind kind' : FuncKind} {x : String} (h : kind.Titled x v)
    (other : x ≠ "operator") (plain : ∀ symbol, kind' ≠ .operator symbol) : kind'.Titled x v := by
  cases h with
  | name _ => exact .name plain
  | operator => exact absurd rfl other

theorem asMethod_built {f : FuncDecl} {ts : List Token}
    (h : (Phrase.node (.func f)).Built Phrase.AsRead ts) :
    (Phrase.node (.func (asMethod f))).Built Phrase.AsRead ts := by
  have renamed (kind : FuncKind) (infer : Bool) (other : f.name ≠ "operator")
      (plain : ∀ symbol, kind ≠ .operator symbol) :
      (Phrase.node (.func { f with kind, infer })).Built Phrase.AsRead ts := by
    obtain ⟨made, filled, as⟩ := h
    cases made with
    | node made =>
      cases made with
      | func made =>
        obtain ⟨modifiers, titled, commas⟩ := made
        exact .mk (.node (.func (.mk modifiers (titled_rename titled other plain) commas))) filled
          ⟨as.marked, as.fresh⟩
  unfold asMethod
  split
  · next same => exact renamed .constructor false (by rw [same]; decide) nofun
  · next same => exact renamed .destructor false (by rw [same]; decide) nofun
  · exact h

theorem funcHere_spells : Spells (funcHere g) fun f v => v = f.phrases.map part := by
  refine .of fun c₀ => .begins ((attributeUses_spells _ _).bind fun attrs => .some_of fun v same => ?_)
  subst same
  refine attributed FuncDecl.info .func fun c₁ => .at_pos (.begins ?_)
  refine (modifiers_spells g.steps _ _).bind fun ms => .some_of fun v modifiers => ?_
  refine (Lays.check _).bind fun fn => ?_
  split
  · exact func_since modifiers
  · exact .fails_first fun _ _ => unexpected_ok

theorem funcBlock_spells : Spells (funcBlock g) fun fs v =>
    v = braced ((fs.flatMap FuncDecl.phrases).map part) := by
  refine .of fun c₀ => .begins (expectOp_since.bind fun opener => ?_)
  refine (bracedList_spells funcHere_spells g.steps _ _).after_strengthen ?_
  rintro fs c ⟨_, ⟨w, all, rfl⟩, since⟩
  refine ⟨_, rfl, ?_⟩
  rw [List.map_flatMap, ← Each.eq_flatMap all]
  exact since

/-! ### Enumerations and directives -/

theorem enumMember_writes : Writes (enumMember g) fun m => part (.enumerator m) := by
  refine .of fun c₀ => .at_pos (.begins ((name_writes _ _).bind fun x => value_since.bind fun v => ?_))
  exact finish_here (fun _ => .enumerator .mk) (fun _ _ since => since) (by simp)
    fun _ => ⟨rfl, fun _ => rfl, trivial⟩

theorem enumDecl_since {attrs : List AttributeUse} {ms : Modifiers} (modifiers : ms.Made u) :
    Lays (fun c => c₀.Since u c ∧ c.current.kind = .keyword .kEnum)
      (enumDecl g (headed attrs ms) c₀.pos) fun d c =>
        d.info.attrs = attrs ∧ c₀.Since [part (.node (.enum d))] c := by
  refine (advance_kind (by nofun)).bind fun _ => (name_writes _ _).bind fun x => ?_
  refine expectOp_since.bind fun opener => ?_
  refine (commaList_spells enumMember_writes g.steps _ _).bind fun members => ?_
  refine .some_of fun v ⟨w, commas, same⟩ => ?_
  subst same
  refine .respell (u ++ [key .kEnum, Piece.name x] ++ braced w) (by simp [braced, key]) ?_
  exact finish_here (fun _ => .node (.enum (.mk modifiers commas))) (fun _ _ since => ⟨rfl, since⟩)
    (by simp) fun _ => ⟨rfl, fun _ => rfl, .empty⟩

theorem row_cons {first : TypeExpr} {more : List TypeExpr}
    (all : Each (fun t v => v = [op .comma, Piece.type t]) more w) :
    Row ((first :: more).map Piece.type) (Piece.type first :: w) := by
  induction all generalizing first with
  | nil => exact .last
  | cons here _ ih =>
    subst here
    exact .more ih

theorem bases_spells : Spells (bases g) TypeExpr.Extended := by
  refine .of fun c₀ => .begins (acceptWord_since.bind fun found => ?_)
  cases found with
  | true =>
    refine (type_writes g.steps _ _).bind fun first => ?_
    have item : Spells (after? (acceptOp .comma) (type g.steps)) fun r v =>
        (r = none ∧ v = []) ∨ ∃ t, r = some t ∧ v = [op .comma, Piece.type t] := by
      refine .of fun c₀ => .begins ((after?_since (fun _ => acceptOp_since)
        (type_writes g.steps)).after_strengthen fun r c since => ⟨_, ?_, since⟩)
      cases r with
      | none => exact .inl ⟨rfl, rfl⟩
      | some t => exact .inr ⟨t, rfl, rfl⟩
    refine (many_spells item g.steps _ _).bind fun more => .some_of fun v all => ?_
    exact .pure fun c since => ⟨_, .some (row_cons all), since⟩
  | false => exact .pure fun c since => ⟨[], .none, since⟩

theorem barePath_spells (n : Nat) : Spells (barePath n) fun pieces v =>
    ∃ words : List (Token.Kind × String), pieces = words.map Prod.snd ∧
      v = words.map fun t => word t.1 t.2 := by
  induction n with
  | zero => exact fun _ _ => .fails fun _ _ => exhausted_ok
  | succ n ih =>
    refine .of fun c₀ => .at_current ?_
    split
    · exact .begins (.pure fun c since => ⟨[], ⟨[], rfl, rfl⟩, since⟩)
    · exact .fails fun _ _ => unexpected_ok
    · exact .fails fun _ _ => unexpected_ok
    · exact .fails fun _ _ => unexpected_ok
    · next eof _ _ =>
      refine (advance_at eof (filled_word rfl)).bind fun _ => ?_
      refine (ih _ _).bind fun pieces => .some_of fun v ⟨words, same, spelled⟩ => ?_
      subst same spelled
      exact .pure fun c since => ⟨_, ⟨(c₀.current.kind, c₀.current.literal) :: words, rfl, rfl⟩, since⟩

theorem locality_spells {kind : IncludeKind} : Spells (locality kind) fun _ v => v ∈ localities := by
  have none : ([] : List Piece) ∈ localities := List.mem_cons_self
  refine .of fun c₀ => .begins ?_
  unfold locality
  split
  · exact .pure fun c since => ⟨_, none, since⟩
  · refine acceptWord_since.bind fun here => ?_
    cases here with
    | true => exact .pure fun c since => ⟨_, List.mem_cons_of_mem _ List.mem_cons_self, since⟩
    | false =>
      refine acceptWord_since.bind fun system => ?_
      cases system with
      | true =>
        exact .pure fun c since =>
          ⟨_, List.mem_cons_of_mem _ (List.mem_cons_of_mem _ List.mem_cons_self), since⟩
      | false => exact .pure fun c since => ⟨_, none, since⟩

theorem includePath_spells {where_ : Option Bool} :
    Spells (includePath g where_) fun r v => Piece.Path r.1 v := by
  refine .of fun c₀ => .at_current ?_
  split
  · next kind =>
    have kind := eq_of_beq kind
    refine (advance_at (kind ▸ nofun) (filled_word kind)).bind fun _ => ?_
    exact .pure fun c since => ⟨_, .quoted, since⟩
  · refine .begins ((barePath_spells g.steps _ _).bind fun pieces => .some_of fun v good => ?_)
    obtain ⟨words, rfl, rfl⟩ := good
    split
    · exact .fails_first fun _ _ => unexpected_ok
    · exact .pure fun c since => ⟨_, .bare, since⟩

section

variable {attrs : List AttributeUse} {ms : Modifiers} (modifiers : ms.Made u)

include modifiers

theorem includeDecl_since (kind : IncludeKind) :
    Lays (fun c => c₀.Since u c ∧ c.current.kind = .keyword kind.keyword)
      (includeDecl g (headed attrs ms) c₀.pos kind) fun d c =>
        d.info.attrs = attrs ∧ c₀.Since [part (.node d.node)] c := by
  refine (advance_kind (by nofun)).bind fun _ => ?_
  refine (locality_spells _ _).bind fun where_ => .some_of fun v locality => ?_
  refine (includePath_spells _ _).bind fun path => .some_of fun w path => skip_since.bind fun _ => ?_
  refine .respell (u ++ key kind.keyword :: v ++ w ++ [op .semicolon]) (by simp [key]) ?_
  exact finish_here (fun _ => .node (.decl (.includes modifiers locality path)))
    (fun _ _ since => ⟨rfl, since⟩) (by simp) fun _ => ⟨rfl, fun _ => rfl, .empty⟩

theorem assumeDecl_since :
    Lays (fun c => c₀.Since u c ∧ c.current.kind = .keyword .kAssume)
      (assumeDecl g (headed attrs ms) c₀.pos) fun d c =>
        d.info.attrs = attrs ∧ c₀.Since [part (.node d.node)] c := by
  refine (advance_kind (by nofun)).bind fun _ => ?_
  refine (dottedName_spells g.steps _ _).bind fun x => .some_of fun v dots => ?_
  refine expectWord_since.bind fun _ => .current fun t => ?_
  split
  · exact .fails fun _ _ => unexpected_ok
  · next kind found =>
    have literal : kind.word = t.literal := by
      have found := List.find?_some (p := fun k : AssumeKind => k.word == t.literal) found
      exact eq_of_beq found
    have some : t.literal ≠ "" := by
      rw [← literal]
      cases kind <;> decide
    refine (advance_some (.inr some) (filled_word rfl)).bind fun _ => skip_since.bind fun _ => ?_
    rw [← literal]
    refine .respell (u ++ key .kAssume :: v ++ [Piece.name "is", word t.kind kind.word,
      op .semicolon]) (by simp [key]) ?_
    exact finish_here (fun _ => .node (.decl (.assume modifiers dots)))
      (fun _ _ since => ⟨rfl, since⟩) (by simp) fun _ => ⟨rfl, fun _ => rfl, .empty⟩

theorem attributeDef_since :
    Lays (fun c => c₀.Since u c ∧ c.current.kind = .keyword .kAttribute)
      (attributeDef g (headed attrs ms) c₀.pos) fun d c =>
        d.info.attrs = attrs ∧ c₀.Since [part (.node d.node)] c := by
  refine (advance_kind (by nofun)).bind fun _ => (name_writes _ _).bind fun x => ?_
  refine (attributeParams_spells _ _).bind fun params => .some_of fun v names => ?_
  have defines : Lays (c₀.Since (u ++ [key .kAttribute] ++ [Piece.name x] ++ v))
      (modify fun c => { c with arities := (x, params.length) :: c.arities }) fun _ =>
        c₀.Since (u ++ [key .kAttribute] ++ [Piece.name x] ++ v) := by
    intro c c' u ordered since h
    cases h
    obtain ⟨ts, feeds, filled⟩ := since
    exact ⟨ordered, ts, ⟨feeds.halved, feeds.stop, feeds.last⟩, filled⟩
  refine defines.bind fun _ => expectOp_since.bind fun opener => ?_
  refine (bracedList_spells directive_spells g.steps _ _).bind fun us => .some_of fun v' good => ?_
  obtain ⟨w, listed, rfl⟩ := good
  refine .respell (u ++ [key .kAttribute, Piece.name x] ++ v ++ braced w) (by simp [braced]) ?_
  exact finish_here (fun _ => .node (.decl (.attributeDef modifiers names listed)))
    (fun _ _ since => ⟨rfl, since⟩) (by simp) fun _ => ⟨rfl, fun _ => rfl, .empty⟩

end

/-! ### Declarations -/

theorem asItem_since (d : Decl) :
    Lays (c₀.Since (d.phrases.map part)) (asItem d) fun i => c₀.Since (i.phrases.map part) := by
  unfold asItem
  split
  · next f =>
    refine .pure fun c since => ?_
    obtain ⟨ts, feeds, filled⟩ := since
    simp only [Decl.phrases, Item.phrases, DeclInfo.phrases, Decl.info, Item.info, Decl.node,
      Item.node, asMethod_info, List.map_append] at filled ⊢
    obtain ⟨us, vs, rfl, uses, func⟩ := filled.split
    exact ⟨_, feeds, uses.append (filled_part (asMethod_built func.built))⟩
  · exact .pure fun c since => since
  · exact .fails fun _ _ => failAt_ok

theorem decl_spells (n : Nat) : Spells (decl g n) fun d v => v = d.phrases.map part := by
  induction n with
  | zero => exact fun _ _ => .fails fun _ _ => exhausted_ok
  | succ n ih =>
    have items : Spells (decl g n >>= asItem) fun i v => v = i.phrases.map part := by
      refine .of fun c₀ => .begins ((ih _ _).bind fun d => .some_of fun v same => ?_)
      subst same
      exact (asItem_since d).after_strengthen fun i c since => ⟨_, rfl, since⟩
    refine .of fun c₀ => .begins ((attributeUses_spells _ _).bind fun attrs => .some_of fun v same => ?_)
    subst same
    refine attributed Decl.info Decl.node fun c₁ => .at_pos (.begins ?_)
    refine (modifiers_spells g.steps _ _).bind fun ms => .some_of fun u modifiers => ?_
    refine .current fun t => ?_
    split
    · next kind => exact .at_kind kind (includeDecl_since modifiers .header)
    · next kind => exact .at_kind kind (includeDecl_since modifiers .contained)
    · next kind => exact .at_kind kind (includeDecl_since modifiers .imported)
    · next kind => exact .at_kind kind (includeDecl_since modifiers .derived)
    · next kind => exact .at_kind kind (assumeDecl_since modifiers)
    · next kind =>
      refine .at_kind kind ?_
      refine injected_since.bind fun text => .some_of fun v captured => ?_
      exact finish_here (fun _ => .node (.inject modifiers captured))
        (fun _ _ since => ⟨rfl, since⟩) (by simp [captured_ne_nil captured])
        fun _ => ⟨rfl, fun _ => rfl, .empty⟩
    · next kind =>
      refine .at_kind kind ?_
      refine (advance_kind (by nofun)).bind fun _ => (name_writes _ _).bind fun x => ?_
      refine expectOp_since.bind fun opener => ?_
      refine (bracedList_spells ih g.steps _ _).bind fun ds => .some_of fun v good => ?_
      obtain ⟨w, all, rfl⟩ := good
      rw [Each.eq_flatMap all, ← List.map_flatMap]
      refine .respell (u ++ [key .kNamespace, Piece.name x]
        ++ braced ((ds.flatMap Decl.phrases).map part)) (by simp [braced, key]) ?_
      exact finish_here (fun _ => .node (.decl (.scope modifiers))) (fun _ _ since => ⟨rfl, since⟩)
        (by simp) fun _ => ⟨rfl, fun _ => rfl, .empty⟩
    · next kind =>
      refine .at_kind kind ?_
      refine (advance_kind (by nofun)).bind fun _ => (name_writes _ _).bind fun x => ?_
      refine (bases_spells _ _).bind fun bs => .some_of fun v extended => ?_
      refine expectOp_since.bind fun opener => ?_
      refine (bracedList_spells items g.steps _ _).bind fun is => .some_of fun v' good => ?_
      obtain ⟨w, all, rfl⟩ := good
      rw [Each.eq_flatMap all, ← List.map_flatMap]
      refine .respell (u ++ [key .kClass, Piece.name x] ++ v
        ++ braced ((is.flatMap Item.phrases).map part)) (by simp [braced, key]) ?_
      exact finish_here (fun _ => .node (.decl (.cls modifiers extended)))
        (fun _ _ since => ⟨rfl, since⟩) (by simp) fun _ => ⟨rfl, fun _ => rfl, .empty⟩
    · next kind =>
      refine .at_kind kind ?_
      refine (advance_kind (by nofun)).bind fun _ => (name_writes _ _).bind fun x => ?_
      refine expectWord_since.bind fun _ => (type_writes g.steps _ _).bind fun target => ?_
      refine (funcBlock_spells _ _).bind fun fs => .some_of fun v same => ?_
      subst same
      refine .respell (u ++ [key .kAbstract, Piece.name x, Piece.name "becomes", Piece.type target]
        ++ braced ((fs.flatMap FuncDecl.phrases).map part)) (by simp [key]) ?_
      exact finish_here (fun _ => .node (.decl (.abstraction modifiers)))
        (fun _ _ since => ⟨rfl, since⟩) (by simp) fun _ => ⟨rfl, fun _ => rfl, .empty⟩
    · next kind =>
      refine .at_kind kind ?_
      refine (advance_kind (by nofun)).bind fun _ => (type_writes g.steps _ _).bind fun target => ?_
      refine (funcBlock_spells _ _).bind fun fs => .some_of fun v same => ?_
      subst same
      refine .respell (u ++ [key .kRefurbish, Piece.type target]
        ++ braced ((fs.flatMap FuncDecl.phrases).map part)) (by simp [key]) ?_
      exact finish_here (fun _ => .node (.decl (.refurbish modifiers)))
        (fun _ _ since => ⟨rfl, since⟩) (by simp) fun _ => ⟨rfl, fun _ => rfl, .empty⟩
    · next kind => exact .at_kind kind ((enumDecl_since modifiers).map fun d c done => done)
    · next kind => exact .at_kind kind (attributeDef_since modifiers)
    · next kind => exact .map (.drop (func_since modifiers)) fun f c done => done
    · next kind => exact .map (.drop (varDecl_since modifiers)) fun d c done => done
    · exact .fails fun _ _ => unexpected_ok

theorem decls_since (n : Nat) :
    Lays (c₀.Since w) (decls g n) fun ds c =>
      c₀.Since (w ++ (ds.flatMap Decl.phrases).map part) c ∧ c.current.kind = .eof := by
  induction n generalizing w with
  | zero => exact .fails fun _ _ => exhausted_ok
  | succ n ih =>
    refine .checks (.pure fun c h => ?_) ?_
    · simpa using h
    · refine (decl_spells g.steps _ _).bind fun d => .some_of fun v same => ?_
      subst same
      refine ih.bind fun ds => .pure fun c h => ?_
      rw [List.append_assoc] at h
      simpa using h

end TastyLang.Reader

namespace TastyLang

open Reader Piece

/-! ### Texts -/

variable {table : Table} {src : String}

/-- The cursor that a text is read from. -/
structure Cursor.Starts (c : Cursor) (src : String) : Prop where
  tokens : c.rest = (Token.stream src).tokens
  stop : c.stop = (Token.stream src).stop
  ordered : c.Ordered

theorem Reader.run_starts {α : Type} {reader : Nat → Reader α} {a : α}
    (h : run src reader = .ok a) :
    ∃ (n : Nat) (c c' : Cursor), c.Starts src ∧ reader n c = .ok (a, c') := by
  obtain ⟨start, checked, h⟩ := except_bind_ok h
  obtain ⟨r, result, h⟩ := except_bind_ok h
  cases h
  have same : start = { rest := (Token.stream src).tokens, stop := (Token.stream src).stop } := by
    unfold Cursor.checked at checked
    split at checked <;> cases checked
    rfl
  have starts : start.Starts src := by
    rw [same]
    exact ⟨rfl, rfl, Token.stream_ordered src⟩
  exact ⟨_, start, r.2, starts, result⟩

namespace Cursor

variable {c c' : Cursor} {ts : List Token}

theorem Starts.ends (starts : c.Starts src) (h : c.Feeds ts c') (last : c'.current.kind = .eof) :
    c'.rest = [] := by
  have plain : ∀ t ∈ ts ++ c'.rest, t.kind ≠ .eof := h.halved.each (fun t member =>
    ((Token.stream_stands src).1 t (starts.tokens ▸ member)).mark) fun _ _ _ => nofun
  cases rest : c'.rest with
  | nil => rfl
  | cons t us =>
    rw [current, rest] at last
    exact absurd last (plain t (List.mem_append_right _ (rest ▸ List.mem_cons_self)))

theorem Starts.cut {stop : Pos} (starts : c.Starts src) (h : c.Feeds ts c')
    (ends : (Token.stream src).stop = .ok stop) (none : c'.rest = []) :
    Token.Cut [] src.toList (ts ++ [⟨.eof, "", stop⟩]) := by
  have whole := @Token.scanFrom_cut .eof .first src.toList [] stop rfl ends
  have halved := h.halved
  rw [none, List.append_nil, starts.tokens] at halved
  refine whole.halved halved.append_right fun t member o kind => ?_
  rcases List.mem_append.mp member with member | member
  · exact ((Token.stream_ordered src).before t member).2.symbol o kind
  · rw [List.mem_singleton.mp member] at kind
    cases kind

end Cursor

theorem File.read_built {name : String} {file : File} (h : File.read table name src = .ok file) :
    ∃ ts, Token.Cut [] src.toList ts ∧ (Phrase.node (.file file)).Built Phrase.Marked ts := by
  obtain ⟨stop, ends⟩ := (File.read_ended table name src).1 file h
  obtain ⟨n, c, c', starts, h⟩ := Reader.run_starts h
  obtain ⟨_, _, read, h⟩ := bind_ok h
  obtain ⟨rfl, rfl⟩ := Reader.pos_ok read
  obtain ⟨ds, c₁, read, h⟩ := bind_ok h
  obtain ⟨-, ⟨ts, feeds, filled⟩, mark⟩ := decls_since n starts.ordered (.refl c) read
  obtain ⟨_, _, read, h⟩ := bind_ok h
  obtain ⟨rfl, rfl⟩ := Reader.pos_ok read
  obtain ⟨rfl, rfl⟩ := pure_ok h
  have none := starts.ends feeds mark
  have last : c₁.pos = stop := by
    rw [Cursor.pos, Cursor.current, none, Cursor.stopPos, feeds.stop, starts.stop, ends]
  have first : (ts ++ [(⟨.eof, "", stop⟩ : Token)]).head?.map Token.pos = some c.pos := by
    cases ts with
    | nil =>
      have halved := feeds.halved
      rw [none] at halved
      cases tokens : c.rest with
      | nil =>
        rw [Cursor.pos, Cursor.current, tokens, Cursor.stopPos, starts.stop, ends]
        rfl
      | cons t us =>
        rw [tokens] at halved
        cases halved
    | cons t us => exact congrArg some feeds.pos.symm
  refine ⟨_, starts.cut feeds ends none, .spans (.mk (.node .file)
    (filled.append (filled_sign rfl)) ⟨⟨first, ?_⟩, trivial⟩)⟩
  show (ts ++ [_]).getLast?.map Token.stop = some c₁.pos
  rw [List.getLast?_concat, last]
  simp [Token.stop, Pos.shift]

/-- An expression is read as the grammar says, from all tokens of its text but the end mark. -/
theorem Expr.read_built {e : Expr} (h : Expr.read table src = .ok e) :
    ∃ ts stop, Token.Halved (Token.stream src).tokens ts ∧
      Token.Cut [] src.toList (ts ++ [⟨.eof, "", stop⟩]) ∧
      (Phrase.expr e).Built Phrase.Marked ts := by
  obtain ⟨n, c, c', starts, h⟩ := Reader.run_starts h
  obtain ⟨_, c₁, read, h⟩ := bind_ok h
  obtain ⟨-, ts, feeds, filled⟩ := expression_writes table n c [] starts.ordered (.refl c) read
  obtain ⟨_, _, read, h⟩ := bind_ok h
  obtain ⟨rfl, rfl⟩ := pure_ok h
  obtain ⟨_, read⟩ := discard_ok read
  obtain ⟨_, _, here, read⟩ := bind_ok read
  obtain ⟨rfl, rfl⟩ := current_ok here
  split at read
  · next mark =>
    have none := starts.ends feeds (eq_of_beq mark)
    -- reading the end mark fails where the text ends in an error
    obtain ⟨_, _, read, -⟩ := bind_ok read
    obtain ⟨_, _, here, read⟩ := bind_ok read
    cases here
    obtain ⟨d, _, checked, -⟩ := bind_ok read
    cases ends : (Token.stream src).stop with
    | ok stop =>
      have halved := feeds.halved
      rw [none, List.append_nil, starts.tokens] at halved
      exact ⟨ts, stop, halved, starts.cut feeds ends none, filled.built.spans⟩
    | error e =>
      have stop : c₁.stop = .error e := by rw [feeds.stop, starts.stop, ends]
      rw [none, stop] at checked
      cases checked
  · exact absurd read unexpected_ok

end TastyLang
