import TastyLang.Proofs.Compilation.Readiness
import TastyLang.Proofs.Resolution.Completeness

/-!
# What is left of a tree after resolution

Settling storage and expanding attributes leave the expressions and the written types of a file as they
are, and of a variable they change at most the notes on its declaration (`analyze_keeps`). Storage is
settled nowhere but at parameters and loops that resolution came to (`analyze_reaches`).
-/

namespace TastyLang

/-- The same node, the same variable with other notes at its place, or a function or a loop that may have
got the storage it was written without. -/
inductive Node.Alike : Node → Node → Prop
  | refl (n : Node) : n.Alike n
  | var (d : VarDecl) (own : DeclInfo) (place : own.span = d.info.span) :
    Node.Alike (.var d) (.var { d with info := own })
  | func {f g : FuncDecl} (params : g.params.map Param.span = f.params.map Param.span) :
    Node.Alike (.func f) (.func g)
  | each (span : Span) (name : String) (storage storage' : Storage) (items : Expr) (body body' : Block) :
    Node.Alike (.stmt (.each span name storage items body)) (.stmt (.each span name storage' items body'))

/-- Whether resolution notes something about a node. -/
def Node.isNoted : Node → Bool
  | .expr _ | .type _ | .var _ | .func _ | .stmt (.each _ _ _ _ _) => true
  | _ => false

/-- Each node of the second list that resolution notes something about is one of the first. -/
def Kept (ns ns' : List Node) : Prop := ∀ n' ∈ ns', n'.isNoted → ∃ n ∈ ns, n.Alike n'

namespace Kept

variable {ns ns' ms ms' : List Node}

theorem refl (ns : List Node) : Kept ns ns := fun n member _ => ⟨n, member, .refl n⟩

theorem head {n n' : Node} (alike : n'.isNoted → n.Alike n') (h : Kept ns ns') :
    Kept (n :: ns) (n' :: ns') := by
  intro m member noted
  rcases List.mem_cons.mp member with rfl | member
  · exact ⟨n, List.mem_cons_self, alike noted⟩
  · obtain ⟨k, inside, alike⟩ := h m member noted
    exact ⟨k, List.mem_cons_of_mem _ inside, alike⟩

theorem cons {n n' : Node} (silent : n'.isNoted = false) (h : Kept ns ns') :
    Kept (n :: ns) (n' :: ns') :=
  head (fun noted => nomatch silent.symm.trans noted) h

theorem append (h : Kept ns ns') (h' : Kept ms ms') : Kept (ns ++ ms) (ns' ++ ms') := by
  intro m member key
  rcases List.mem_append.mp member with member | member
  · obtain ⟨k, inside, alike⟩ := h m member key
    exact ⟨k, List.mem_append_left _ inside, alike⟩
  · obtain ⟨k, inside, alike⟩ := h' m member key
    exact ⟨k, List.mem_append_right _ inside, alike⟩

theorem flatMap {α : Type} {xs : List α} {g : α → α} {nodes : α → List Node}
    (each : ∀ x ∈ xs, Kept (nodes x) (nodes (g x))) :
    Kept (xs.flatMap nodes) ((xs.map g).flatMap nodes) := by
  induction xs with
  | nil => exact refl []
  | cons x xs ih =>
    rw [List.map_cons, List.flatMap_cons, List.flatMap_cons]
    exact (each x List.mem_cons_self).append (ih fun y member => each y (List.mem_cons_of_mem _ member))

theorem trans (h : Kept ns ns') (h' : Kept ns' ms) : Kept ns ms := by
  intro m member key
  obtain ⟨k, inside, alike⟩ := h' m member key
  cases alike with
  | refl => exact h m inside key
  | var d own place =>
    obtain ⟨n, listed, alike⟩ := h (.var d) inside rfl
    cases alike with
    | refl => exact ⟨.var d, listed, .var d own place⟩
    | var e own' place' => exact ⟨.var e, listed, .var e own (place.trans place')⟩
  | @func f g params =>
    obtain ⟨n, listed, alike⟩ := h (.func f) inside rfl
    cases alike with
    | refl => exact ⟨.func f, listed, .func params⟩
    | @func e _ params' => exact ⟨.func e, listed, .func (params.trans params')⟩
  | each span name storage storage' items body body' =>
    obtain ⟨n, listed, alike⟩ := h (.stmt (.each span name storage items body)) inside rfl
    cases alike with
    | refl => exact ⟨_, listed, .each _ _ _ _ _ _ _⟩
    | each => exact ⟨_, listed, .each _ _ _ _ _ _ _⟩

end Kept

/-! ### Settling -/

namespace Ownership

variable (c : Context)

mutual

theorem settleStmt_keeps (l : Ledger) : (s : Stmt) → Kept s.nodes (settleStmt c s l).1.nodes
  | .block b => by
    rw [Stmt.nodes]
    exact settleBlock_keeps false l b
  | .expr _ x => .cons rfl (.refl x.nodes)
  | .decl span d => by
    rw [settleStmt_decl]
    exact .refl _
  | .branch _ _ cond yes none => by
    rw [Stmt.nodes]
    exact .cons rfl (((Kept.refl cond.nodes).append (settleBlock_keeps false _ yes)).append (.refl []))
  | .branch _ _ cond yes (some no) => by
    rw [Stmt.nodes]
    exact .cons rfl (((Kept.refl cond.nodes).append (settleBlock_keeps false _ yes)).append
      (settleStmt_keeps _ no))
  | .loop _ _ cond body => by
    rw [Stmt.nodes]
    exact .cons rfl ((Kept.refl _).append (settleBlock_keeps true _ body))
  | .count _ _ _ low high step body => by
    rw [Stmt.nodes]
    exact .cons rfl ((Kept.refl _).append (settleBlock_keeps true _ body))
  | .each _ _ _ items body => by
    rw [Stmt.nodes]
    exact .head (fun _ => .each _ _ _ _ _ _ _) ((Kept.refl _).append (settleBlock_keeps true _ body))
  | .ret _ value _ _ _ => by
    rw [settleStmt_ret, Stmt.nodes]
    split <;> exact .cons rfl (.refl _)
  | .brk _ _ | .cont _ _ | .inject _ _ => by
    rw [Stmt.nodes]
    exact .cons rfl (.refl [])

theorem settleBlock_keeps (loop : Bool) (l : Ledger) : (b : Block) →
    Kept b.nodes (settleBlock c loop b l).1.nodes
  | .mk _ ss _ => by
    rw [Block.nodes]
    exact .cons rfl (settleStmts_keep _ ss)

theorem settleStmts_keep (l : Ledger) : (ss : List Stmt) →
    Kept (Stmt.nodesOf ss) (Stmt.nodesOf (settleStmts c ss l).1)
  | [] => .refl _
  | s :: ss => by
    rw [Stmt.nodesOf]
    exact (settleStmt_keeps l s).append (settleStmts_keep _ ss)

end

end Ownership

section
variable (info : Info) (atTop : Bool)

theorem FuncDecl.settle_keeps (f : FuncDecl) : Kept f.nodes (f.settle info atTop).nodes := by
  have body : Kept (nodesIn Block.nodes f.body) (nodesIn Block.nodes (f.settle info atTop).body) := by
    unfold FuncDecl.settle
    cases f.body with
    | none => exact .refl []
    | some b => exact Ownership.settleBlock_keeps _ false {} b
  have params : Kept (f.params.flatMap Param.nodes) ((f.settle info atTop).params.flatMap Param.nodes) :=
    .flatMap fun q _ => .refl q.nodes
  have spans : (f.settle info atTop).params.map Param.span = f.params.map Param.span := List.map_map
  exact .head (fun _ => .func spans) ((params.append (.refl _)).append body)

theorem Item.settle_keeps (i : Item) : Kept i.nodes (i.settle info atTop).nodes := by
  cases i with
  | func f => exact f.settle_keeps info atTop
  | _ => exact .refl _

mutual

theorem Decl.settle_keeps : (atTop : Bool) → (d : Decl) → Kept d.nodes (d.settle info atTop).nodes
  | atTop, .item i => by
    rw [Decl.settle, Decl.nodes, Decl.nodes]
    exact i.settle_keeps info atTop
  | _, .scope _ _ ds => by
    rw [Decl.settle, Decl.nodes, Decl.nodes]
    exact .cons rfl (Decl.settleAll_keep false ds)
  | _, .cls _ _ bases items => by
    rw [Decl.settle, Decl.nodes, Decl.nodes]
    exact .cons rfl ((Kept.refl _).append (.flatMap fun i _ => i.settle_keeps info false))
  | _, .abstraction _ _ target fs => by
    rw [Decl.settle, Decl.nodes, Decl.nodes]
    exact .cons rfl ((Kept.refl _).append (.flatMap fun f _ => f.settle_keeps info false))
  | atTop, .refurbish _ target fs => by
    rw [Decl.settle, Decl.nodes, Decl.nodes]
    exact .cons rfl ((Kept.refl _).append (.flatMap fun f _ => f.settle_keeps info atTop))
  | _, .includes _ _ _ _ | _, .assume _ _ _ | _, .attributeDef _ _ _ _ => .refl _

theorem Decl.settleAll_keep : (atTop : Bool) → (ds : List Decl) →
    Kept (Decl.nodesOf ds) (Decl.nodesOf (Decl.settleAll info atTop ds))
  | _, [] => .refl _
  | atTop, d :: ds => by
    rw [Decl.settleAll, Decl.nodesOf, Decl.nodesOf]
    exact (Decl.settle_keeps atTop d).append (Decl.settleAll_keep atTop ds)

end

end

/-! ### Attributes -/

namespace Attribute

variable {defs : List Definition}

theorem expandInfo_span {i i' : DeclInfo} (h : expandInfo defs i = .ok i') : i'.span = i.span := by
  obtain ⟨fxs, -, h⟩ := except_bind_ok h
  cases h
  rfl

theorem expandItem_keeps {i i' : Item} (h : expandItem defs i = .ok i') : Kept i.nodes i'.nodes := by
  obtain ⟨own, expanded, h⟩ := except_bind_ok h
  cases h
  have place := expandInfo_span expanded
  cases i with
  | var d =>
    intro n member key
    rcases List.mem_cons.mp member with rfl | member
    · exact ⟨.var d, List.mem_cons_self, .var d own place⟩
    · exact ⟨n, List.mem_cons_of_mem _ member, .refl n⟩
  | func f => exact .head (fun _ => .func rfl) (.refl _)
  | enum d => exact .cons rfl (.refl _)
  | inject info text => exact .cons rfl (.refl [])

theorem expandItems_keep {items items' : List Item} (h : items.mapM (expandItem defs) = .ok items') :
    Kept (items.flatMap Item.nodes) (items'.flatMap Item.nodes) := by
  induction items generalizing items' with
  | nil =>
    cases h
    exact .refl _
  | cons i items ih =>
    rw [List.mapM_cons] at h
    obtain ⟨i', first, h⟩ := except_bind_ok h
    obtain ⟨is, rest, h⟩ := except_bind_ok h
    cases h
    exact (expandItem_keeps first).append (ih rest)

mutual

theorem expandDecl_keeps : {d d' : Decl} → expandDecl defs d = .ok d' → Kept d.nodes d'.nodes
  | .item i, d', h => by
    obtain ⟨i', expanded, h⟩ := except_bind_ok h
    cases h
    rw [Decl.nodes, Decl.nodes]
    exact expandItem_keeps expanded
  | .scope own name ds, d', h => by
    obtain ⟨own', -, h⟩ := except_bind_ok h
    obtain ⟨ds', inner, h⟩ := except_bind_ok h
    cases h
    rw [Decl.nodes, Decl.nodes]
    exact .cons rfl (expandDecls_keep inner)
  | .cls own name bases items, d', h => by
    obtain ⟨own', -, h⟩ := except_bind_ok h
    obtain ⟨items', inner, h⟩ := except_bind_ok h
    cases h
    rw [Decl.nodes, Decl.nodes]
    exact .cons rfl ((Kept.refl _).append (expandItems_keep inner))
  | .abstraction _ _ _ _, d', h | .refurbish _ _ _, d', h => by
    obtain ⟨own', -, h⟩ := except_bind_ok h
    cases h
    rw [Decl.withInfo, Decl.nodes, Decl.nodes]
    exact .cons rfl (.refl _)
  | .includes _ _ _ _, d', h | .assume _ _ _, d', h => by
    obtain ⟨own', -, h⟩ := except_bind_ok h
    cases h
    exact .cons rfl (.refl [])
  | .attributeDef _ _ _ _, d', h => by
    cases h
    exact .refl _

theorem expandDecls_keep : {ds ds' : List Decl} → expandDecls defs ds = .ok ds' →
    Kept (Decl.nodesOf ds) (Decl.nodesOf ds')
  | [], ds', h => by
    cases h
    exact .refl _
  | d :: ds, ds', h => by
    obtain ⟨d', first, h⟩ := except_bind_ok h
    obtain ⟨rest, later, h⟩ := except_bind_ok h
    cases h
    rw [Decl.nodesOf, Decl.nodesOf]
    exact (expandDecl_keeps first).append (expandDecls_keep later)

end

mutual

theorem inheritDecl_keeps (known : List (Span × List String)) : (d : Decl) →
    Kept d.nodes (inheritDecl known d).nodes
  | .scope own name ds => by
    rw [inheritDecl, Decl.nodes, Decl.nodes]
    exact .cons rfl (inheritDecls_keep known ds)
  | .cls own name bases items => by
    rw [inheritDecl, Decl.nodes, Decl.nodes]
    exact .cons rfl (.refl _)
  | .item _ | .includes _ _ _ _ | .assume _ _ _ | .abstraction _ _ _ _ | .refurbish _ _ _
  | .attributeDef _ _ _ _ => .refl _

theorem inheritDecls_keep (known : List (Span × List String)) : (ds : List Decl) →
    Kept (Decl.nodesOf ds) (Decl.nodesOf (inheritDecls known ds))
  | [] => .refl _
  | d :: ds => by
    rw [inheritDecls, Decl.nodesOf, Decl.nodesOf]
    exact (inheritDecl_keeps known d).append (inheritDecls_keep known ds)

end

end Attribute

theorem analyze_keeps {table : Table} {name src : String} {a : Analysis}
    (h : analyze table name src = .ok a) :
    ∃ file, File.read table name src = .ok file ∧ file.resolve table = .ok a.info ∧
      Kept file.nodes a.file.nodes := by
  obtain ⟨file, read, h⟩ := except_bind_ok h
  obtain ⟨info, resolved, h⟩ := except_bind_ok h
  obtain ⟨expanded, expand, h⟩ := except_bind_ok h
  cases h
  refine ⟨file, mapError_ok read, mapError_ok resolved, ?_⟩
  obtain ⟨ds, generated, h⟩ := except_bind_ok (mapError_ok expand)
  cases h
  have settled : Kept (Decl.nodesOf file.decls) (Decl.nodesOf (file.settle info).decls) :=
    Decl.settleAll_keep info true file.decls
  exact .cons rfl ((settled.trans (Attribute.expandDecls_keep generated)).trans
    (Attribute.inheritDecls_keep _ ds))

/-- A storage that is settled belongs to a parameter or to the variable of a loop over a collection, and
resolution made a symbol for each of these. -/
theorem analyze_reaches {table : Table} {name src : String} {a : Analysis}
    (h : analyze table name src = .ok a) :
    (∀ f, .func f ∈ a.file.nodes → ∀ q ∈ f.params, q.span ∈ a.info.params) ∧
    (∀ span x storage items body, .stmt (.each span x storage items body) ∈ a.file.nodes →
      span ∈ a.info.loopVars) ∧
    ∀ d, .var d ∈ a.file.nodes → ∃ file e, File.read table name src = .ok file ∧
      .var e ∈ file.nodes ∧ e.info.span = d.info.span ∧ e.storage = d.storage := by
  obtain ⟨file, read, resolved, kept⟩ := analyze_keeps h
  obtain ⟨s₁, s₂, s, passed, same⟩ := File.read_passed read resolved
  rw [← same]
  refine ⟨fun f member q listed => ?_, fun span x storage items body member => ?_, fun d member => ?_⟩
  · obtain ⟨n, inside, alike⟩ := kept _ member rfl
    cases alike with
    | refl => exact (passed.noted _ inside).2 q listed
    | @func g _ params =>
      have listed : q.span ∈ g.params.map Param.span := params ▸ List.mem_map_of_mem listed
      obtain ⟨p, listed, own⟩ := List.mem_map.mp listed
      exact own ▸ (passed.noted _ inside).2 p listed
  · obtain ⟨n, inside, alike⟩ := kept _ member rfl
    cases alike with
    | refl => exact passed.noted _ inside
    | each => exact passed.noted _ inside
  · obtain ⟨n, inside, alike⟩ := kept _ member rfl
    cases alike with
    | refl => exact ⟨file, d, read, inside, rfl, rfl⟩
    | var e own place => exact ⟨file, e, read, inside, place.symm, rfl⟩

end TastyLang
