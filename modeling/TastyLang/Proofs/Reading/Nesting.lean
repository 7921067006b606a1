import TastyLang.Proofs.Evaluation
import TastyLang.Proofs.Reading.DerivedDeclarations

/-!
# Spans are nested like the nodes

The tokens of a phrase are its own tokens with those of its parts in between (`Phrase.Made.rows`).
In a file that was read the span of a node therefore lies inside that of the node above it, nodes
that stand side by side have their spans one after the other, and the nodes of the file start in the
order in which they are listed (`File.read_nests`).
-/

namespace TastyLang

open Piece

/-! ### Parts of a production -/

namespace Piece

/-- The phrases among some pieces. -/
def phrases : List Piece → List Phrase
  | [] => []
  | part p :: w => p :: phrases w
  | sign _ :: w | word _ _ :: w => phrases w

@[simp] theorem phrases_nil : phrases [] = [] := rfl

@[simp]
theorem phrases_append (v w : List Piece) : phrases (v ++ w) = phrases v ++ phrases w := by
  induction v with
  | nil => rfl
  | cons p v ih => cases p <;> simp [phrases, ih]

section

variable (w : List Piece)

@[simp] theorem phrases_part (p : Phrase) : phrases (part p :: w) = p :: phrases w := rfl
@[simp] theorem phrases_sign (k : Token.Kind) : phrases (sign k :: w) = phrases w := rfl
@[simp] theorem phrases_word (k : Token.Kind) (x : String) :
    phrases (word k x :: w) = phrases w := rfl
@[simp] theorem phrases_op (o : Operator) : phrases (op o :: w) = phrases w := rfl
@[simp] theorem phrases_key (k : Keyword) : phrases (key k :: w) = phrases w := rfl
@[simp] theorem phrases_name (x : String) : phrases (name x :: w) = phrases w := rfl
@[simp] theorem phrases_expr (e : Expr) : phrases (expr e :: w) = .expr e :: phrases w := rfl
@[simp] theorem phrases_type (t : TypeExpr) : phrases (type t :: w) = .type t :: phrases w := rfl
@[simp] theorem phrases_stmt (s : Stmt) : phrases (stmt s :: w) = .stmt s :: phrases w := rfl
@[simp] theorem phrases_block (b : Block) : phrases (block b :: w) = .block b :: phrases w := rfl

end

variable {ps w : List Piece}

@[simp]
theorem phrases_bracketed (w : List Piece) : phrases (bracketed w) = phrases w := by
  simp [bracketed]

@[simp]
theorem phrases_braced (w : List Piece) : phrases (braced w) = phrases w := by
  simp [braced]

@[simp]
theorem phrases_parts (qs : List Phrase) : phrases (qs.map part) = qs := by
  induction qs with
  | nil => rfl
  | cons q qs ih => rw [List.map_cons, phrases_part, ih]

@[simp]
theorem phrases_stars (k : Nat) : phrases (stars k) = [] := by
  induction k with
  | zero => rfl
  | succ k ih => rw [stars, List.replicate_succ, phrases_op]; exact ih

theorem phrases_map {α : Type} {f : α → Phrase} (xs : List α) :
    phrases (xs.map fun a => part (f a)) = xs.map f := by
  induction xs with
  | nil => rfl
  | cons x xs ih => rw [List.map_cons, phrases_part, ih, List.map_cons]

theorem phrases_signs {α : Type} {piece : α → Piece}
    (plain : ∀ a w, phrases (piece a :: w) = phrases w) (xs : List α) :
    phrases (xs.map piece) = [] := by
  induction xs with
  | nil => rfl
  | cons x xs ih => rw [List.map_cons, plain, ih]

@[simp]
theorem phrases_led (o : Operator) (p : Option Piece) : phrases (led (op o) p) = phrases p.toList := by
  cases p <;> rfl

@[simp]
theorem phrases_led_name (x : String) (p : Option Piece) :
    phrases (led (name x) p) = phrases p.toList := by
  cases p <;> rfl

@[simp]
theorem phrases_led_key (k : Keyword) (p : Option Piece) :
    phrases (led (key k) p) = phrases p.toList := by
  cases p <;> rfl

theorem Commas.phrases (h : Commas ps w) : phrases w = phrases ps := by
  induction h with
  | nil => rfl
  | last => rfl
  | @more p _ _ _ ih => cases p <;> simp [Piece.phrases, ih]

theorem Row.phrases (h : Row ps w) : phrases w = phrases ps := by
  induction h with
  | last => rfl
  | @more p _ _ _ ih => cases p <;> simp [Piece.phrases, ih]

theorem Dots.phrases {x : String} (h : Dots x w) : phrases w = [] := by
  induction h with
  | word => rfl
  | dot _ ih => simp [ih]

theorem Captured.phrases {text : String} (h : Captured text w) : phrases w = [] := by
  cases h <;> rfl

theorem Path.phrases {path : String} (h : Path path w) : phrases w = [] := by
  cases h with
  | quoted => rfl
  | bare => exact phrases_signs (fun _ _ => rfl) _

theorem Names.phrases {xs : List String} (h : Names xs w) : phrases w = [] := by
  rcases h with ⟨-, rfl⟩ | ⟨v, commas, rfl⟩
  · rfl
  · rw [phrases_bracketed, commas.phrases]
    exact phrases_signs (fun _ _ => rfl) _

end Piece

section

variable {w : List Piece}

theorem Modifiers.Made.phrases {ms : Modifiers} (h : ms.Made w) : phrases w = [] := by
  obtain ⟨words, -, rfl⟩ := h
  exact phrases_signs (fun _ _ => rfl) _

theorem Storage.Given.phrases {s : Storage} (h : s.Given w) : phrases w = [] := by
  rcases h with ⟨t, -, rfl⟩ | ⟨-, rfl⟩ <;> rfl

theorem FuncKind.Titled.phrases {kind : FuncKind} {x : String} (h : kind.Titled x w) :
    phrases w = [] := by
  cases h with
  | name _ => rfl
  | operator => exact phrases_signs (fun o w => phrases_op w o) _

theorem AttributeUse.Listed.phrases {us : List AttributeUse} (h : Each AttributeUse.Listed us w) :
    phrases w = us.map .use := by
  induction h with
  | nil => rfl
  | cons listed _ ih => rcases listed with rfl | rfl <;> exact congrArg _ ih

theorem TypeExpr.Extended.phrases {ts : List TypeExpr} (h : TypeExpr.Extended ts w) :
    phrases w = ts.map .type := by
  cases h with
  | none => rfl
  | some row => exact row.phrases.trans (phrases_map _)

theorem TypeExpr.Made.phrases {t : TypeExpr} (h : t.Made w) : phrases w = t.parts := by
  have types (ts : List TypeExpr) : Piece.phrases (ts.map Piece.type) = ts.map .type := phrases_map ts
  cases h with
  | number => rfl
  | named dots angled =>
    cases angled with
    | none => simp [dots.phrases, TypeExpr.parts]
    | some row => simp [dots.phrases, row.phrases, types, TypeExpr.parts]
  | tuple commas => simp [commas.phrases, types, TypeExpr.parts]
  | @func _ _ result _ _ commas =>
    cases result <;> simp [commas.phrases, types, TypeExpr.parts]

theorem Expr.Made.phrases {e : Expr} (h : e.Made w) : phrases w = e.parts := by
  have exprs (es : List Expr) : Piece.phrases (es.map Piece.expr) = es.map .expr := phrases_map es
  cases h with
  | call commas => simp [commas.phrases, exprs, Expr.parts]
  | newWith commas => simp [commas.phrases, exprs, Expr.parts]
  | tuple commas => simp [commas.phrases, exprs, Expr.parts]
  | @cast _ _ kind _ => cases kind <;> rfl
  | _ => rfl

theorem VarDecl.Made.phrases {d : VarDecl} (h : d.Made w) : phrases w = d.parts := by
  obtain ⟨modifiers, storage⟩ := h
  have storage := Storage.Given.phrases (.inl storage)
  cases type : d.type <;> cases value : d.value <;>
    simp [modifiers.phrases, storage, VarDecl.parts, type, value]

theorem Stmt.Made.phrases {s : Stmt} (h : s.Made w) : phrases w = s.parts := by
  cases h with
  | @branch _ _ _ _ no => cases no <;> simp [Stmt.parts]
  | @count _ _ _ _ _ step _ => cases step <;> simp [Stmt.parts]
  | each storage => simp [storage.phrases, Stmt.parts]
  | @ret _ value _ _ => cases value <;> simp [Stmt.parts]
  | inject captured => exact captured.phrases
  | _ => rfl

theorem FuncDecl.Made.phrases {f : FuncDecl} (h : f.Made w) : Piece.phrases w = f.parts := by
  obtain ⟨modifiers, titled, commas⟩ := h
  have constant : Piece.phrases (if f.constant then [sign (.modifier .const)] else []) = [] := by
    cases f.constant <;> rfl
  cases result : f.result <;> cases body : f.body <;>
    simp [modifiers.phrases, titled.phrases, commas.phrases, phrases_map, constant, FuncDecl.parts,
      result, body]

theorem Decl.Made.phrases {d : Decl} (h : d.Made w) : Piece.phrases w = d.parts := by
  cases h with
  | @includes _ _ _ _ _ v _ modifiers locality path =>
    have locality : Piece.phrases v = [] := by
      simp only [localities, List.mem_cons, List.not_mem_nil, or_false] at locality
      rcases locality with rfl | rfl | rfl <;> rfl
    simp [modifiers.phrases, path.phrases, locality, Decl.parts]
  | assume modifiers dots => simp [modifiers.phrases, dots.phrases, Decl.parts]
  | scope modifiers => simp [modifiers.phrases, Decl.parts]
  | cls modifiers extended => simp [modifiers.phrases, extended.phrases, Decl.parts]
  | abstraction modifiers => simp [modifiers.phrases, Decl.parts]
  | refurbish modifiers => simp [modifiers.phrases, Decl.parts]
  | attributeDef modifiers names listed =>
    simp [modifiers.phrases, names.phrases, AttributeUse.Listed.phrases listed, Decl.parts]

theorem Phrase.Made.phrases {p : Phrase} (h : p.Made w) : Piece.phrases w = p.parts := by
  cases h with
  | node made =>
    cases made with
    | file => simp [Phrase.parts, Node.parts]
    | decl made => exact made.phrases
    | var made => exact made.phrases
    | func made => exact made.phrases
    | enum made =>
      obtain ⟨modifiers, commas⟩ := made
      simp [modifiers.phrases, commas.phrases, phrases_map, Phrase.parts, Node.parts]
    | inject modifiers captured => simp [modifiers.phrases, captured.phrases, Phrase.parts, Node.parts]
    | type made => exact made.phrases
    | block =>
      rw [phrases_braced]
      exact phrases_map _
    | stmt made => exact made.phrases
    | expr made => exact made.phrases
  | param made =>
    obtain ⟨storage⟩ := made
    rename_i p _
    cases value : p.value <;> simp [storage.phrases, Phrase.parts, value]
  | enumerator made =>
    obtain ⟨⟩ := made
    rename_i m
    cases value : m.value <;> simp [Phrase.parts, value]
  | use made =>
    cases made with
    | bare => rfl
    | applied =>
      rw [phrases_append, phrases_bracketed]
      exact phrases_signs (fun _ _ => rfl) _

end

/-! ### Where parts stand -/

/-- Phrases stand among tokens, one after the other. -/
inductive Phrase.Rows (fits : Phrase → List Token → Prop) : List Phrase → List Token → Prop where
  | nil {ts : List Token} : Rows fits [] ts
  | skip {ps : List Phrase} {t : Token} {ts : List Token} : Rows fits ps ts → Rows fits ps (t :: ts)
  | part {p : Phrase} {ps : List Phrase} {us ts : List Token} : p.Built fits us → Rows fits ps ts →
      Rows fits (p :: ps) (us ++ ts)

namespace Phrase

variable {fits : Phrase → List Token → Prop} {p q : Phrase} {ps qs : List Phrase}
  {ts us : List Token}

theorem Rows.of_filled {w : List Piece} (h : Filled fits w ts) : Rows fits (Piece.phrases w) ts := by
  induction w generalizing ts with
  | nil =>
    cases h
    exact .nil
  | cons p w ih =>
    cases h with
    | sign rest => exact .skip (ih rest)
    | word rest => exact .skip (ih rest)
    | part built rest => exact .part built (ih rest)

theorem Built.rows (h : p.Built fits ts) : Rows fits p.parts ts := by
  obtain ⟨made, filled, -⟩ := h
  rw [← made.phrases]
  exact .of_filled filled

theorem Rows.front (h : Rows fits ps ts) : Rows fits ps (us ++ ts) := by
  induction us with
  | nil => exact h
  | cons u us ih => exact .skip ih

theorem Rows.append (h : Rows fits ps ts) (h' : Rows fits qs us) :
    Rows fits (ps ++ qs) (ts ++ us) := by
  induction h with
  | nil => exact h'.front
  | skip _ ih => exact .skip ih
  | part built _ ih =>
    rw [List.append_assoc]
    exact .part built ih

theorem Rows.mem (h : Rows fits ps ts) (member : p ∈ ps) : ∃ us, us <:+: ts ∧ p.Built fits us := by
  induction h with
  | nil => cases member
  | skip _ ih =>
    obtain ⟨us, inside, built⟩ := ih member
    exact ⟨us, inside.trans (List.suffix_cons _ _).isInfix, built⟩
  | part built _ ih =>
    rcases List.mem_cons.mp member with rfl | member
    · exact ⟨_, (List.prefix_append _ _).isInfix, built⟩
    · obtain ⟨us, inside, built⟩ := ih member
      exact ⟨us, inside.trans (List.suffix_append _ _).isInfix, built⟩

end Phrase

/-! ### The nodes of a tree -/

/-- The nodes listed for a phrase: parameters and enumerators give way to their parts, and
attributes are not listed. -/
def Phrase.shown : Phrase → List Node
  | node n => [n]
  | param p => .type p.type :: (p.value.map .expr).toList
  | enumerator m => (m.value.map .expr).toList
  | use _ => []

def Node.children (n : Node) : List Node := n.parts.flatMap Phrase.shown

/-- A node in front of all nodes below it. -/
def Node.nodes : Node → List Node
  | file f => f.nodes
  | decl d => d.nodes
  | var d => d.nodes
  | func f => f.nodes
  | enum d => d.nodes
  | inject info => [inject info]
  | type t => t.nodes
  | block b => b.nodes
  | stmt s => s.nodes
  | expr e => e.nodes

@[simp]
theorem Stmt.node_nodes (s : Stmt) : s.node.nodes = s.nodes := by
  cases s <;> rfl

@[simp]
theorem Item.node_nodes (i : Item) : i.node.nodes = i.nodes := by
  cases i <;> rfl

@[simp]
theorem Decl.node_nodes (d : Decl) : d.node.nodes = d.nodes := by
  cases d with
  | item i => rw [Decl.node, Item.node_nodes, Decl.nodes]
  | _ => rfl

/-- The nodes below what is shown of some phrases. -/
def Phrase.nodes (p : Phrase) : List Node := p.shown.flatMap Node.nodes

@[simp] theorem Phrase.nodes_node (n : Node) : (node n).nodes = n.nodes := by simp [nodes, shown]

@[simp]
theorem DeclInfo.phrases_nodes (info : DeclInfo) (n : Node) :
    (info.phrases n).flatMap Phrase.nodes = n.nodes := by
  have none (us : List AttributeUse) : (us.map .use).flatMap Phrase.nodes = [] := by
    induction us with
    | nil => rfl
    | cons u us ih => rw [List.map_cons, List.flatMap_cons, ih]; rfl
  rw [DeclInfo.phrases, List.flatMap_append, none]
  simp

theorem Node.children_nodes (n : Node) :
    n.children.flatMap nodes = n.parts.flatMap Phrase.nodes := by
  rw [children, List.flatMap_assoc]
  rfl

@[simp] theorem Phrase.nodes_type (t : TypeExpr) : (type t).nodes = t.nodes := nodes_node _
@[simp] theorem Phrase.nodes_expr (e : Expr) : (expr e).nodes = e.nodes := nodes_node _
@[simp] theorem Phrase.nodes_block (b : Block) : (block b).nodes = b.nodes := nodes_node _

@[simp]
theorem Phrase.nodes_stmt (s : Stmt) : (stmt s).nodes = s.nodes := by
  rw [stmt, nodes_node, Stmt.node_nodes]

theorem TypeExpr.nodes_eq (t : TypeExpr) :
    t.nodes = .type t :: t.parts.flatMap Phrase.nodes := by
  cases t with
  | func s params result k =>
    cases result <;> simp [nodes, parts, nodesOf_eq, List.flatMap_map]
  | _ => simp [nodes, parts, nodesOf_eq, List.flatMap_map]

theorem Expr.nodes_eq (e : Expr) : e.nodes = .expr e :: e.parts.flatMap Phrase.nodes := by
  cases e <;> simp [nodes, parts, nodesOf_eq, List.flatMap_map]

theorem VarDecl.nodes_eq (d : VarDecl) : d.nodes = .var d :: d.parts.flatMap Phrase.nodes := by
  cases type : d.type <;> cases value : d.value <;>
    simp [nodes, parts, nodesIn, type, value]

theorem Block.nodes_eq (b : Block) :
    b.nodes = .block b :: (b.stmts.map Phrase.stmt).flatMap Phrase.nodes := by
  cases b with
  | mk s ss owned => simp [nodes, stmts, Stmt.nodesOf_eq, List.flatMap_map]

theorem Stmt.nodes_eq {s : Stmt} (plain : ∀ b, s ≠ .block b) :
    s.nodes = .stmt s :: s.parts.flatMap Phrase.nodes := by
  cases s with
  | block b => exact absurd rfl (plain b)
  | branch s negate cond yes no => cases no <;> simp [nodes, parts]
  | loop s negate cond body => cases cond <;> simp [nodes, parts, nodesIn]
  | count s kind x low high step body => cases step <;> simp [nodes, parts, nodesIn]
  | ret s value implicit effect exit => cases value <;> simp [nodes, parts, nodesIn]
  | _ => simp [nodes, parts, Node.nodes]

theorem FuncDecl.nodes_eq (f : FuncDecl) : f.nodes = .func f :: f.parts.flatMap Phrase.nodes := by
  have params (p : Param) : (Phrase.param p).nodes = p.nodes := by
    cases value : p.value <;> simp [Phrase.nodes, Phrase.shown, Param.nodes, nodesIn, Node.nodes, value]
  cases result : f.result <;> cases body : f.body <;>
    simp [nodes, parts, nodesIn, List.flatMap_map, params, result, body]

theorem EnumDecl.nodes_eq (d : EnumDecl) :
    d.nodes = .enum d :: (d.members.map Phrase.enumerator).flatMap Phrase.nodes := by
  have members (m : EnumMember) :
      (Phrase.enumerator m).nodes = nodesIn Expr.nodes m.value := by
    cases value : m.value <;> simp [Phrase.nodes, Phrase.shown, nodesIn, Node.nodes, value]
  simp [nodes, List.flatMap_map, members]

@[simp]
theorem Decl.phrases_nodes (d : Decl) : d.phrases.flatMap Phrase.nodes = d.nodes := by
  rw [phrases, DeclInfo.phrases_nodes, node_nodes]

@[simp]
theorem Item.phrases_nodes (i : Item) : i.phrases.flatMap Phrase.nodes = i.nodes := by
  rw [phrases, DeclInfo.phrases_nodes, node_nodes]

@[simp]
theorem FuncDecl.phrases_nodes (f : FuncDecl) : f.phrases.flatMap Phrase.nodes = f.nodes := by
  rw [phrases, DeclInfo.phrases_nodes, Node.nodes]

theorem Decl.nodes_eq {d : Decl} (plain : ∀ i, d ≠ .item i) :
    d.nodes = .decl d :: d.parts.flatMap Phrase.nodes := by
  have uses (us : List AttributeUse) : (us.map Phrase.use).flatMap Phrase.nodes = [] := by
    rw [List.flatMap_map, List.flatMap_eq_nil_iff]
    exact fun _ _ => rfl
  cases d with
  | item i => exact absurd rfl (plain i)
  | cls info x bases items =>
    simp [nodes, parts, TypeExpr.nodesOf_eq, List.flatMap_map, List.flatMap_assoc]
  | _ => simp [nodes, parts, Decl.nodesOf_eq, uses, List.flatMap_assoc]

theorem Node.Made.nodes {n : Node} {w : List Piece} (h : n.Made w) :
    n.nodes = n :: n.children.flatMap Node.nodes := by
  rw [Node.children_nodes]
  cases h with
  | @file f => simp [Node.nodes, File.nodes, Node.parts, Decl.nodesOf_eq, List.flatMap_assoc]
  | decl made => exact Decl.nodes_eq fun i same => by subst same; cases made
  | var _ => exact VarDecl.nodes_eq _
  | func _ => exact FuncDecl.nodes_eq _
  | enum _ => exact EnumDecl.nodes_eq _
  | inject _ _ => rfl
  | type _ => exact TypeExpr.nodes_eq _
  | block => exact Block.nodes_eq _
  | stmt made => exact Stmt.nodes_eq fun b same => by subst same; cases made
  | expr _ => exact Expr.nodes_eq _

/-! ### Spans -/

/-- Each token ends where the next one starts, or before. -/
def Token.InTurn (ts : List Token) : Prop := ts.Pairwise fun t u => t.stop.offset ≤ u.pos.offset

theorem Token.Cut.inTurn {before cs : List Char} {ts : List Token} (h : Token.Cut before cs ts) :
    Token.InTurn ts :=
  h.ordered.imp fun both => by rw [Token.stop_offset]; exact both.2

theorem Token.pos_le_stop (t : Token) : t.pos.offset ≤ t.stop.offset := by
  rw [Token.stop_offset]
  omega

namespace Span

variable {s : Span} {ts : List Token}

theorem Covers.start_le (h : s.Covers ts) (turns : Token.InTurn ts) :
    ∀ t ∈ ts, s.start.offset ≤ t.pos.offset := by
  cases ts with
  | nil => exact List.forall_mem_nil _
  | cons first ts =>
    have start : first.pos = s.start := Option.some.inj h.start
    obtain ⟨later, -⟩ := List.pairwise_cons.mp turns
    refine List.forall_mem_cons.mpr ⟨Int.le_of_eq (by rw [start]), fun t member => ?_⟩
    have := first.pos_le_stop
    have := later t member
    rw [← start]
    omega

theorem Covers.le_stop (h : s.Covers ts) (turns : Token.InTurn ts) :
    ∀ t ∈ ts, t.stop.offset ≤ s.stop.offset := by
  rcases List.eq_nil_or_concat ts with rfl | ⟨front, last, same⟩
  · exact List.forall_mem_nil _
  · rw [List.concat_eq_append] at same
    subst same
    have stop : last.stop = s.stop := by
      have stop := h.stop
      rw [List.getLast?_concat] at stop
      exact Option.some.inj stop
    obtain ⟨-, -, before⟩ := List.pairwise_append.mp turns
    intro t member
    rcases List.mem_append.mp member with member | member
    · have := before t member last (List.mem_singleton_self last)
      have := last.pos_le_stop
      rw [← stop]
      omega
    · exact Int.le_of_eq (by rw [List.mem_singleton.mp member, stop])

theorem Covers.ends (h : s.Covers ts) :
    (∃ t ∈ ts, t.pos = s.start) ∧ ∃ t ∈ ts, t.stop = s.stop := by
  obtain ⟨first, head, start⟩ := Option.map_eq_some_iff.mp h.start
  obtain ⟨last, tail, stop⟩ := Option.map_eq_some_iff.mp h.stop
  exact ⟨⟨first, List.mem_of_head? head, start⟩, last, List.mem_of_getLast? tail, stop⟩

end Span

namespace Phrase

variable {p q : Phrase} {ps : List Phrase} {ts us : List Token}

theorem covered_front (p : Phrase) (ts : List Token) : p.covered ts <+: ts := by
  unfold covered
  split
  · exact List.dropLast_prefix ts
  · exact List.prefix_rfl

theorem Built.marked {fits : Phrase → List Token → Prop} (h : p.Built fits ts) : fits p ts := by
  obtain ⟨-, -, marked⟩ := h
  exact marked

theorem Built.ends (h : p.Built Marked ts) :
    (∃ t ∈ ts, t.pos = p.span.start) ∧ ∃ t ∈ ts, t.stop = p.span.stop := by
  obtain ⟨⟨t, first, start⟩, u, last, stop⟩ := h.marked.ends
  have inside := (p.covered_front ts).subset
  exact ⟨⟨t, inside first, start⟩, u, inside last, stop⟩

theorem Built.start_le_stop (h : p.Built Marked ts) (turns : Token.InTurn ts) :
    p.span.start.offset ≤ p.span.stop.offset := by
  obtain ⟨t, first, start⟩ := h.marked.ends.1
  have stop := h.marked.le_stop (turns.sublist (p.covered_front ts).sublist) t first
  have := t.pos_le_stop
  rw [← start]
  omega

theorem Built.rows_covered {fits : Phrase → List Token → Prop} (h : p.Built fits ts) :
    Rows fits p.parts (p.covered ts) := by
  unfold covered
  split
  · obtain ⟨made, filled, -⟩ := h
    cases made with
    | node made =>
      cases made with
      | expr made =>
        cases made with
        | member _ =>
          cases filled with
          | part built rest =>
            obtain ⟨t, us, rfl, -, rest⟩ := rest.sign_inv
            obtain ⟨u, vs, rfl, -, -, rest⟩ := rest.word_inv
            cases rest
            rw [List.dropLast_append_cons]
            exact .part built .nil
  · exact h.rows

theorem Rows.shown (h : Rows Marked ps ts) : Rows Marked ((ps.flatMap shown).map node) ts := by
  induction h with
  | nil => exact .nil
  | skip _ ih => exact .skip ih
  | @part p ps us ts built _ ih =>
    rw [List.flatMap_cons, List.map_append]
    refine .append ?_ ih
    have rows := built.rows
    cases p with
    | node n =>
      rw [← List.append_nil us]
      exact .part built .nil
    | param p => cases value : p.value <;> simpa [parts, value, Phrase.shown, type, expr] using rows
    | enumerator m => cases value : m.value <;> simpa [parts, value, Phrase.shown, type, expr] using rows
    | use u => exact .nil

theorem Rows.apart (h : Rows Marked ps ts) (turns : Token.InTurn ts) :
    ps.Pairwise fun p q => p.span.stop.offset ≤ q.span.start.offset := by
  induction h with
  | nil => exact .nil
  | skip _ ih => exact ih (List.pairwise_cons.mp turns).2
  | part built rest ih =>
    obtain ⟨-, right, across⟩ := List.pairwise_append.mp turns
    refine List.pairwise_cons.mpr ⟨fun q member => ?_, ih right⟩
    obtain ⟨us, inside, built'⟩ := rest.mem member
    obtain ⟨t, first, start⟩ := built'.ends.1
    obtain ⟨u, last, stop⟩ := built.ends.2
    rw [← start, ← stop]
    exact across u last t (inside.subset first)

theorem Rows.inside (h : Rows Marked ps (p.covered ts)) (marked : p.Marked ts)
    (turns : Token.InTurn ts) (member : q ∈ ps) :
    p.span.start.offset ≤ q.span.start.offset ∧ q.span.stop.offset ≤ p.span.stop.offset := by
  have turns := turns.sublist (p.covered_front ts).sublist
  obtain ⟨us, inside, built⟩ := h.mem member
  obtain ⟨⟨t, first, start⟩, u, last, stop⟩ := built.ends
  rw [← start, ← stop]
  exact ⟨marked.start_le turns t (inside.subset first), marked.le_stop turns u (inside.subset last)⟩

end Phrase

/-! ### Nodes in order -/

namespace Node

variable {n m : Node} {ts : List Token}

/-- The spans of the nodes right below a node lie inside of its own, one after the other. -/
structure Nests (n : Node) : Prop where
  inside : ∀ m ∈ n.children,
    n.span.start.offset ≤ m.span.start.offset ∧ m.span.start.offset ≤ m.span.stop.offset ∧
      m.span.stop.offset ≤ n.span.stop.offset
  apart : n.children.Pairwise fun a b => a.span.stop.offset ≤ b.span.start.offset

theorem child_length {w : List Piece} (made : n.Made w) (child : m ∈ n.children) :
    m.nodes.length < n.nodes.length := by
  obtain ⟨before, after, same⟩ := List.append_of_mem child
  rw [made.nodes, same, List.flatMap_append, List.flatMap_cons]
  simp only [List.length_cons, List.length_append]
  omega

theorem rows_children (h : (Phrase.node n).Built Phrase.Marked ts) :
    Phrase.Rows Phrase.Marked (n.children.map .node) ((Phrase.node n).covered ts) :=
  h.rows_covered.shown

theorem made_of_built {fits : Phrase → List Token → Prop} (h : (Phrase.node n).Built fits ts) :
    ∃ w, n.Made w := by
  obtain ⟨made, -, -⟩ := h
  cases made with
  | node made => exact ⟨_, made⟩

theorem built_induction {motive : Node → List Token → Prop}
    (step : ∀ n ts, (Phrase.node n).Built Phrase.Marked ts →
      (∀ c ∈ n.children, ∃ us, us <:+: ts ∧ (Phrase.node c).Built Phrase.Marked us ∧ motive c us) →
      motive n ts) (n : Node) (ts : List Token) (h : (Phrase.node n).Built Phrase.Marked ts) :
    motive n ts := by
  obtain ⟨w, made⟩ := made_of_built h
  refine step n ts h fun c child => ?_
  obtain ⟨us, inside, built⟩ := (rows_children h).mem (List.mem_map_of_mem child)
  have front := ((Phrase.node n).covered_front ts).isInfix
  exact ⟨us, inside.trans front, built, built_induction step c us built⟩
termination_by n.nodes.length
decreasing_by exact child_length made child

theorem built_nodes (h : (Phrase.node n).Built Phrase.Marked ts) (below : m ∈ n.nodes) :
    ∃ us, us <:+: ts ∧ (Phrase.node m).Built Phrase.Marked us := by
  refine built_induction (motive := fun n ts => m ∈ n.nodes →
    ∃ us, us <:+: ts ∧ (Phrase.node m).Built Phrase.Marked us) ?_ n ts h below
  intro n ts h ih below
  obtain ⟨w, made⟩ := made_of_built h
  rw [made.nodes] at below
  rcases List.mem_cons.mp below with rfl | below
  · exact ⟨ts, List.infix_rfl, h⟩
  · obtain ⟨c, child, below⟩ := List.mem_flatMap.mp below
    obtain ⟨us, inside, -, found⟩ := ih c child
    obtain ⟨vs, inside', built⟩ := found below
    exact ⟨vs, inside'.trans inside, built⟩

theorem nodes_below (h : (Phrase.node n).Built Phrase.Marked ts) (below : m ∈ n.nodes) :
    m.nodes ⊆ n.nodes := by
  refine built_induction (motive := fun n ts => m ∈ n.nodes → m.nodes ⊆ n.nodes) ?_ n ts h below
  intro n ts h ih below
  obtain ⟨w, made⟩ := made_of_built h
  rw [made.nodes] at below ⊢
  rcases List.mem_cons.mp below with rfl | below
  · rw [made.nodes]
    exact List.Subset.refl _
  · obtain ⟨c, child, below⟩ := List.mem_flatMap.mp below
    obtain ⟨us, -, -, found⟩ := ih c child
    intro k inside
    exact List.mem_cons_of_mem _ (List.mem_flatMap.mpr ⟨c, child, found below inside⟩)

theorem nests_of_built (h : (Phrase.node n).Built Phrase.Marked ts) (turns : Token.InTurn ts) :
    n.Nests := by
  have rows := rows_children h
  have front := (Phrase.node n).covered_front ts
  refine ⟨fun m child => ?_, ?_⟩
  · have member := List.mem_map_of_mem (f := Phrase.node) child
    obtain ⟨start, stop⟩ := rows.inside h.marked turns member
    obtain ⟨us, inside, built⟩ := rows.mem member
    have turns := turns.sublist (inside.trans front.isInfix).sublist
    exact ⟨start, built.start_le_stop turns, stop⟩
  · exact List.pairwise_map.mp (rows.apart (turns.sublist front.sublist))

theorem start_inside (h : (Phrase.node n).Built Phrase.Marked ts) (turns : Token.InTurn ts)
    (below : m ∈ n.nodes) :
    n.span.start.offset ≤ m.span.start.offset ∧ m.span.start.offset ≤ n.span.stop.offset := by
  refine built_induction (motive := fun n ts => Token.InTurn ts → m ∈ n.nodes →
    n.span.start.offset ≤ m.span.start.offset ∧ m.span.start.offset ≤ n.span.stop.offset) ?_ n ts h
    turns below
  intro n ts h ih turns below
  obtain ⟨w, made⟩ := made_of_built h
  rw [made.nodes] at below
  rcases List.mem_cons.mp below with rfl | below
  · exact ⟨Int.le_refl _, h.start_le_stop turns⟩
  · obtain ⟨c, child, below⟩ := List.mem_flatMap.mp below
    obtain ⟨us, inside, -, found⟩ := ih c child
    obtain ⟨start, stop⟩ := found (turns.sublist inside.sublist) below
    obtain ⟨start', -, stop'⟩ := (nests_of_built h turns).inside c child
    exact ⟨by omega, by omega⟩

theorem sorted_nodes (h : (Phrase.node n).Built Phrase.Marked ts) (turns : Token.InTurn ts) :
    n.nodes.Pairwise fun a b => a.span.start.offset ≤ b.span.start.offset := by
  refine built_induction (motive := fun n ts => Token.InTurn ts →
    n.nodes.Pairwise fun a b => a.span.start.offset ≤ b.span.start.offset) ?_ n ts h turns
  intro n ts h ih turns
  obtain ⟨w, made⟩ := made_of_built h
  have inside (m : Node) (below : m ∈ n.nodes) := start_inside h turns below
  rw [made.nodes] at inside ⊢
  refine List.pairwise_cons.mpr ⟨fun m below => (inside m (List.mem_cons_of_mem _ below)).1, ?_⟩
  refine List.pairwise_flatMap.mpr ⟨fun c child => ?_, ?_⟩
  · obtain ⟨us, here, -, sorted⟩ := ih c child
    exact sorted (turns.sublist here.sublist)
  · -- all below an earlier child start before it ends, all below a later one behind its start
    refine (nests_of_built h turns).apart.imp_of_mem fun {a b} first second apart x left y right => ?_
    obtain ⟨us, here, built, -⟩ := ih a first
    obtain ⟨vs, there, built', -⟩ := ih b second
    obtain ⟨-, before⟩ := start_inside built (turns.sublist here.sublist) left
    obtain ⟨behind, -⟩ := start_inside built' (turns.sublist there.sublist) right
    omega

end Node

theorem File.read_below {table : Table} {name src : String} {file : File}
    (h : File.read table name src = .ok file) {n m : Node} (node : n ∈ file.nodes)
    (below : m ∈ n.nodes) : m ∈ file.nodes := by
  obtain ⟨ts, -, built⟩ := File.read_built h
  exact Node.nodes_below built node below

/-- In a file that was read, spans are nested like the nodes are, nodes that stand side by side have
their spans one after the other, and the nodes start in the order in which they are listed: each in
front of those below it. -/
theorem File.read_nests {table : Table} {name src : String} {file : File}
    (h : File.read table name src = .ok file) :
    (∀ n ∈ file.nodes, n.Nests ∧ n.nodes = n :: n.children.flatMap Node.nodes) ∧
      file.nodes.Pairwise fun a b => a.span.start.offset ≤ b.span.start.offset := by
  obtain ⟨ts, cut, built⟩ := File.read_built h
  refine ⟨fun n below => ?_, Node.sorted_nodes built cut.inTurn⟩
  obtain ⟨us, inside, built⟩ := Node.built_nodes built below
  obtain ⟨w, made⟩ := Node.made_of_built built
  exact ⟨Node.nests_of_built built (cut.inTurn.sublist inside.sublist), made.nodes⟩

/-- A closing bracket cut in two, attributes with a modifier behind them and a chain of accesses. -/
theorem File.read_nests_method :
    let src := "@a class C \x7b\n @b static fn f(x: A<B<int>>) -> int \x7b return x.y.z(1)[2]; \x7d\n\x7d"
    ∃ file, File.read .default "main" src = .ok file ∧ file.nodes.length = 16 ∧
      (∀ n ∈ file.nodes, n.Nests ∧ n.nodes = n :: n.children.flatMap Node.nodes) ∧
        file.nodes.Pairwise fun a b => a.span.start.offset ≤ b.span.start.offset := by
  intro src
  have computed : (File.read .default "main" src).toOption.any (·.nodes.length == 16) = true := by
    rw [File.read_ofList]
    decide +kernel
  obtain ⟨file, found, length⟩ := (Option.any_eq_true _ _).mp computed
  have read := toOption_eq_some found
  exact ⟨file, read, beq_iff_eq.mp length, File.read_nests read⟩

end TastyLang
