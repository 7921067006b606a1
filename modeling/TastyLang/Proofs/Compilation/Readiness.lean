import TastyLang.Compilation.Basic
import TastyLang.Proofs.Emission.Failures
import TastyLang.Proofs.Ownership.Paths
import TastyLang.Proofs.Reading.Marks
import TastyLang.Proofs.Resolution.Passes

/-!
# What is analyzed can be written

Reading gives every variable a storage, settling gives one to parameters and loop variables, and
expanding attributes takes none away. So emission never meets a storage that is open or a range out
of place (`compile_settled`).
-/

namespace TastyLang

/-- A variable has its storage. -/
def Node.Stored : Node → Prop
  | .var d => d.storage.isUnresolved = false
  | _ => True

abbrev StoredAll (ns : List Node) : Prop := ∀ n ∈ ns, n.Stored

theorem storedAll_append {ns ms : List Node} :
    StoredAll (ns ++ ms) ↔ StoredAll ns ∧ StoredAll ms := List.forall_mem_append

theorem storedAll_cons {n : Node} {ns : List Node} :
    StoredAll (n :: ns) ↔ n.Stored ∧ StoredAll ns := List.forall_mem_cons

theorem Storage.settled_resolved (s : Storage) : s.settled.isUnresolved = false := by
  unfold settled
  split
  · rfl
  · next resolved => exact eq_false_of_ne_true resolved

/-! ### Types and values declare nothing -/

mutual

theorem TypeExpr.nodes_settled : (t : TypeExpr) → SettledAll t.nodes
  | .named _ _ args _ => settledAll_cons.mpr ⟨trivial, TypeExpr.nodesOf_settled args⟩
  | .tuple _ elems _ => settledAll_cons.mpr ⟨trivial, TypeExpr.nodesOf_settled elems⟩
  | .func _ params none _ =>
    settledAll_cons.mpr ⟨trivial, settledAll_append.mpr ⟨TypeExpr.nodesOf_settled params, settledAll_nil⟩⟩
  | .func _ params (some r) _ =>
    settledAll_cons.mpr ⟨trivial,
      settledAll_append.mpr ⟨TypeExpr.nodesOf_settled params, TypeExpr.nodes_settled r⟩⟩

theorem TypeExpr.nodesOf_settled : (ts : List TypeExpr) → SettledAll (TypeExpr.nodesOf ts)
  | [] => settledAll_nil
  | t :: ts => settledAll_append.mpr ⟨TypeExpr.nodes_settled t, TypeExpr.nodesOf_settled ts⟩

end

mutual

theorem Expr.nodes_settled : (e : Expr) → SettledAll e.nodes
  | .literal _ _ _ | .ident _ _ | .self _ => by
    rw [Expr.nodes]
    exact settledAll_cons.mpr ⟨trivial, settledAll_nil⟩
  | .unary _ _ x _ | .member _ x _ _ | .delete _ x | .tupleIndex _ x _ | .paren _ x => by
    rw [Expr.nodes]
    exact settledAll_cons.mpr ⟨trivial, Expr.nodes_settled x⟩
  | .binary _ _ l r | .index _ l r | .range _ l r => by
    rw [Expr.nodes]
    exact settledAll_cons.mpr
      ⟨trivial, settledAll_append.mpr ⟨Expr.nodes_settled l, Expr.nodes_settled r⟩⟩
  | .call _ fn args => by
    rw [Expr.nodes]
    exact settledAll_cons.mpr
      ⟨trivial, settledAll_append.mpr ⟨Expr.nodes_settled fn, Expr.nodesOf_settled args⟩⟩
  | .new _ t args => by
    rw [Expr.nodes]
    exact settledAll_cons.mpr
      ⟨trivial, settledAll_append.mpr ⟨t.nodes_settled, Expr.nodesOf_settled args⟩⟩
  | .cast _ x _ t => by
    rw [Expr.nodes]
    exact settledAll_cons.mpr
      ⟨trivial, settledAll_append.mpr ⟨Expr.nodes_settled x, t.nodes_settled⟩⟩
  | .tuple _ elems => by
    rw [Expr.nodes]
    exact settledAll_cons.mpr ⟨trivial, Expr.nodesOf_settled elems⟩
  | .ternary _ c y n => by
    rw [Expr.nodes]
    exact settledAll_cons.mpr ⟨trivial, settledAll_append.mpr
      ⟨settledAll_append.mpr ⟨Expr.nodes_settled c, Expr.nodes_settled y⟩, Expr.nodes_settled n⟩⟩

theorem Expr.nodesOf_settled : (es : List Expr) → SettledAll (Expr.nodesOf es)
  | [] => settledAll_nil
  | e :: es => by
    rw [Expr.nodesOf]
    exact settledAll_append.mpr ⟨Expr.nodes_settled e, Expr.nodesOf_settled es⟩

end

theorem nodesIn_settled {α : Type} {nodes : α → List Node} {part : Option α}
    (each : ∀ a, part = some a → SettledAll (nodes a)) : SettledAll (nodesIn nodes part) := by
  cases part with
  | none => exact settledAll_nil
  | some a => exact each a rfl

theorem Expr.nodesIn_settled {e : Option Expr} : SettledAll (nodesIn Expr.nodes e) :=
  TastyLang.nodesIn_settled fun e _ => e.nodes_settled

theorem TypeExpr.nodesIn_settled {t : Option TypeExpr} : SettledAll (nodesIn TypeExpr.nodes t) :=
  TastyLang.nodesIn_settled fun t _ => t.nodes_settled

theorem VarDecl.nodes_settled {d : VarDecl} (h : d.storage.isUnresolved = false) :
    SettledAll d.nodes :=
  settledAll_cons.mpr ⟨h, settledAll_append.mpr ⟨TypeExpr.nodesIn_settled, Expr.nodesIn_settled⟩⟩

/-! ### Settling -/

namespace Ownership

variable (c : Context)

mutual

theorem settleStmt_settled (l : Ledger) : (s : Stmt) → StoredAll s.nodes →
    SettledAll (settleStmt c s l).1.nodes
  | .block b, h => by
    rw [Stmt.nodes] at h
    exact settleBlock_settled false l b h
  | .expr _ x, _ => settledAll_cons.mpr ⟨trivial, x.nodes_settled⟩
  | .decl span d, h => by
    simp only [Stmt.nodes, VarDecl.nodes, storedAll_cons] at h
    rw [settleStmt_decl]
    exact settledAll_cons.mpr ⟨trivial, VarDecl.nodes_settled h.2.1⟩
  | .branch _ _ cond yes none, h => by
    simp only [Stmt.nodes, storedAll_cons, storedAll_append] at h
    refine settledAll_cons.mpr ⟨trivial, settledAll_append.mpr ⟨settledAll_append.mpr
      ⟨cond.nodes_settled, settleBlock_settled false _ yes h.2.1.2⟩, settledAll_nil⟩⟩
  | .branch _ _ cond yes (some no), h => by
    simp only [Stmt.nodes, storedAll_cons, storedAll_append] at h
    exact settledAll_cons.mpr ⟨trivial, settledAll_append.mpr ⟨settledAll_append.mpr
      ⟨cond.nodes_settled, settleBlock_settled false _ yes h.2.1.2⟩,
      settleStmt_settled _ no h.2.2⟩⟩
  | .loop _ _ cond body, h => by
    simp only [Stmt.nodes, storedAll_cons, storedAll_append] at h
    exact settledAll_cons.mpr ⟨trivial, settledAll_append.mpr
      ⟨Expr.nodesIn_settled, settleBlock_settled true _ body h.2.2⟩⟩
  | .count _ _ _ low high step body, h => by
    simp only [Stmt.nodes, storedAll_cons, storedAll_append] at h
    exact settledAll_cons.mpr ⟨trivial, settledAll_append.mpr ⟨settledAll_append.mpr
      ⟨settledAll_append.mpr ⟨low.nodes_settled, high.nodes_settled⟩, Expr.nodesIn_settled⟩,
      settleBlock_settled true _ body h.2.2⟩⟩
  | .each _ _ storage items body, h => by
    simp only [Stmt.nodes, storedAll_cons, storedAll_append] at h
    exact settledAll_cons.mpr ⟨storage.settled_resolved, settledAll_append.mpr
      ⟨items.nodes_settled, settleBlock_settled true _ body h.2.2⟩⟩
  | .ret _ value _ _ _, _ => by
    rw [settleStmt_ret]
    split
    · exact settledAll_cons.mpr ⟨trivial, Expr.nodesIn_settled⟩
    · exact settledAll_cons.mpr ⟨trivial, Expr.nodesIn_settled⟩
  | .brk _ _, _ | .cont _ _, _ | .inject _ _, _ => List.forall_mem_singleton.mpr trivial

theorem settleBlock_settled (loop : Bool) (l : Ledger) : (b : Block) → StoredAll b.nodes →
    SettledAll (settleBlock c loop b l).1.nodes
  | .mk _ ss _, h => by
    simp only [Block.nodes, storedAll_cons] at h
    exact settledAll_cons.mpr ⟨trivial, settleStmts_settled _ ss h.2⟩

theorem settleStmts_settled (l : Ledger) : (ss : List Stmt) → StoredAll (Stmt.nodesOf ss) →
    SettledAll (Stmt.nodesOf (settleStmts c ss l).1)
  | [], _ => settledAll_nil
  | s :: ss, h => by
    simp only [Stmt.nodesOf, storedAll_append] at h
    exact settledAll_append.mpr ⟨settleStmt_settled l s h.1, settleStmts_settled _ ss h.2⟩

end

mutual

theorem settleStmt_rangeless (l : Ledger) : (s : Stmt) → s.Rangeless →
    (settleStmt c s l).1.Rangeless
  | .block b, h => settleBlock_rangeless false l b h
  | .expr _ _, h => h
  | .decl span d, h => by
    rw [settleStmt_decl]
    exact h
  | .branch _ _ _ yes none, h => ⟨h.1, settleBlock_rangeless false _ yes h.2⟩
  | .branch _ _ _ yes (some no), h =>
    ⟨h.1, settleBlock_rangeless false _ yes h.2.1, settleStmt_rangeless _ no h.2.2⟩
  | .loop _ _ _ body, h => ⟨h.1, settleBlock_rangeless true _ body h.2⟩
  | .count _ _ _ _ _ _ body, ⟨low, high, step, inner⟩ =>
    ⟨low, high, step, settleBlock_rangeless true _ body inner⟩
  | .each _ _ _ _ body, h => ⟨h.1, settleBlock_rangeless true _ body h.2⟩
  | .ret _ _ _ _ _, h => by
    rw [settleStmt_ret]
    split
    · exact h
    · exact h
  | .brk _ _, _ | .cont _ _, _ | .inject _ _, _ => trivial

theorem settleBlock_rangeless (loop : Bool) (l : Ledger) : (b : Block) → b.Rangeless →
    (settleBlock c loop b l).1.Rangeless
  | .mk _ ss _, h => settleStmts_rangeless _ ss h

theorem settleStmts_rangeless (l : Ledger) : (ss : List Stmt) → Stmt.RangelessAll ss →
    Stmt.RangelessAll (settleStmts c ss l).1
  | [], _ => trivial
  | s :: ss, h => ⟨settleStmt_rangeless l s h.1, settleStmts_rangeless _ ss h.2⟩

end

end Ownership

open Ownership

variable (info : Info)

section

variable (atTop : Bool)

theorem FuncDecl.settle_ready {f : FuncDecl} (stored : StoredAll f.nodes) (h : f.Rangeless) :
    (f.settle info atTop).Ready := by
  simp only [FuncDecl.nodes, storedAll_cons, storedAll_append] at stored
  constructor
  · refine settledAll_cons.mpr ⟨fun p member => ?_, settledAll_append.mpr
      ⟨settledAll_append.mpr ⟨fun n member => ?_, TypeExpr.nodesIn_settled⟩,
        nodesIn_settled fun b settled => ?_⟩⟩
    · obtain ⟨q, -, rfl⟩ := List.mem_map.mp member
      exact q.storage.settled_resolved
    · obtain ⟨p, -, member⟩ := List.mem_flatMap.mp member
      exact settledAll_append.mpr ⟨p.type.nodes_settled, Expr.nodesIn_settled⟩ n member
    · obtain ⟨b, has, rfl⟩ := Option.map_eq_some_iff.mp settled
      rw [has] at stored
      exact settleBlock_settled _ false {} b stored.2.2
  · refine ⟨fun p member => ?_, fun b settled => ?_⟩
    · obtain ⟨q, inside, rfl⟩ := List.mem_map.mp member
      exact h.params q inside
    · obtain ⟨b, has, rfl⟩ := Option.map_eq_some_iff.mp settled
      exact settleBlock_rangeless _ false {} b (h.body b has)

theorem Item.settle_ready {i : Item} (stored : StoredAll i.nodes) (h : i.Rangeless) :
    (i.settle info atTop).Ready := by
  cases i with
  | var d => exact ⟨VarDecl.nodes_settled (stored _ List.mem_cons_self), h⟩
  | func f =>
    have ready := FuncDecl.settle_ready info atTop stored h
    exact ⟨ready.settled, ready.rangeless⟩
  | enum d =>
    refine ⟨settledAll_cons.mpr ⟨trivial, fun n member => ?_⟩, h⟩
    obtain ⟨m, -, member⟩ := List.mem_flatMap.mp member
    exact Expr.nodesIn_settled n member
  | inject own text => exact ⟨List.forall_mem_singleton.mpr trivial, h⟩

theorem funcs_ready {own : Decl} {target : TypeExpr} {fs : List FuncDecl}
    (plain : (Node.decl own).Settled) (ready : ∀ f ∈ fs, f.Ready) :
    SettledAll (.decl own :: (target.nodes ++ fs.flatMap FuncDecl.nodes)) := by
  refine settledAll_cons.mpr ⟨plain, settledAll_append.mpr
    ⟨target.nodes_settled, fun n member => ?_⟩⟩
  obtain ⟨f, inside, member⟩ := List.mem_flatMap.mp member
  exact (ready f inside).settled n member

theorem settled_funcs {fs : List FuncDecl} (stored : StoredAll (fs.flatMap FuncDecl.nodes))
    (h : ∀ f ∈ fs, f.Rangeless) : ∀ f ∈ fs.map (FuncDecl.settle info atTop), f.Ready := by
  intro f' member
  obtain ⟨f, inside, rfl⟩ := List.mem_map.mp member
  exact FuncDecl.settle_ready info atTop
    (fun n member => stored n (List.mem_flatMap.mpr ⟨f, inside, member⟩)) (h f inside)

end

theorem Decl.Ready.cls {own : DeclInfo} {name : String} {bases : List TypeExpr} {items : List Item}
    (ready : ∀ i ∈ items, i.Ready) : (Decl.cls own name bases items).Ready := by
  refine ⟨?_, fun i member => (ready i member).rangeless⟩
  rw [Decl.nodes]
  refine settledAll_cons.mpr ⟨trivial, settledAll_append.mpr
    ⟨TypeExpr.nodesOf_settled bases, fun n member => ?_⟩⟩
  obtain ⟨i, inside, member⟩ := List.mem_flatMap.mp member
  exact (ready i inside).settled n member

theorem Decl.Ready.scope {own : DeclInfo} {name : String} {ds : List Decl}
    (ready : Decl.ReadyAll ds) : (Decl.scope own name ds).Ready := by
  refine ⟨?_, ready.rangeless⟩
  rw [Decl.nodes]
  exact settledAll_cons.mpr ⟨trivial, ready.settled⟩

theorem Decl.ReadyAll.nil : Decl.ReadyAll [] := ⟨settledAll_nil, trivial⟩

mutual

theorem Decl.settle_ready : {atTop : Bool} → (d : Decl) → StoredAll d.nodes → d.Rangeless →
    (d.settle info atTop).Ready
  | _, .item i, stored, h => by
    rw [Decl.nodes] at stored
    obtain ⟨settled, rangeless⟩ := Item.settle_ready info _ stored h
    exact ⟨by rwa [Decl.settle, Decl.nodes], rangeless⟩
  | _, .scope _ _ ds, stored, h => by
    rw [Decl.nodes, storedAll_cons] at stored
    exact .scope (Decl.settleAll_ready ds stored.2 h)
  | _, .cls _ _ _ items, stored, h => by
    simp only [Decl.nodes, storedAll_cons, storedAll_append] at stored
    refine .cls fun i' member => ?_
    obtain ⟨i, inside, rfl⟩ := List.mem_map.mp member
    exact Item.settle_ready info false
      (fun n member => stored.2.2 n (List.mem_flatMap.mpr ⟨i, inside, member⟩)) (h i inside)
  | atTop, .abstraction _ _ _ fs, stored, h => by
    simp only [Decl.nodes, storedAll_cons, storedAll_append] at stored
    have ready := settled_funcs info false stored.2.2 h
    refine ⟨?_, fun f member => (ready f member).rangeless⟩
    rw [Decl.settle, Decl.nodes]
    exact funcs_ready trivial ready
  | atTop, .refurbish _ _ fs, stored, h => by
    simp only [Decl.nodes, storedAll_cons, storedAll_append] at stored
    have ready := settled_funcs info atTop stored.2.2 h
    refine ⟨?_, fun f member => (ready f member).rangeless⟩
    rw [Decl.settle, Decl.nodes]
    exact funcs_ready trivial ready
  | _, .includes _ _ _ _, _, _ | _, .assume _ _ _, _, _ | _, .attributeDef _ _ _ _, _, _ =>
    ⟨List.forall_mem_singleton.mpr trivial, trivial⟩

theorem Decl.settleAll_ready : {atTop : Bool} → (ds : List Decl) → StoredAll (Decl.nodesOf ds) →
    Decl.RangelessAll ds → Decl.ReadyAll (Decl.settleAll info atTop ds)
  | _, [], _, _ => .nil
  | _, d :: ds, stored, h => by
    rw [Decl.nodesOf, storedAll_append] at stored
    exact Decl.ReadyAll.cons.mpr
      ⟨Decl.settle_ready d stored.1 h.1, Decl.settleAll_ready ds stored.2 h.2⟩

end

/-! ### Expanding attributes -/

namespace Attribute

theorem withInfo_ready {i : Item} (ready : i.Ready) (own : DeclInfo) : (i.withInfo own).Ready := by
  obtain ⟨settled, rangeless⟩ := ready
  cases i with
  | var d => exact ⟨VarDecl.nodes_settled (settled _ List.mem_cons_self), rangeless⟩
  | func f =>
    obtain ⟨params, rest⟩ := settledAll_cons.mp settled
    exact ⟨settledAll_cons.mpr ⟨params, rest⟩, rangeless.params, rangeless.body⟩
  | enum d => exact ⟨settledAll_cons.mpr ⟨trivial, (settledAll_cons.mp settled).2⟩, rangeless⟩
  | inject _ text => exact ⟨List.forall_mem_singleton.mpr trivial, trivial⟩

variable {defs : List Definition}

theorem expandItem_ready {i i' : Item} (ready : i.Ready) (h : expandItem defs i = .ok i') :
    i'.Ready := by
  obtain ⟨own, -, h⟩ := except_bind_ok h
  cases h
  exact withInfo_ready ready own

theorem expandItems_ready {items items' : List Item} (ready : ∀ i ∈ items, i.Ready)
    (h : items.mapM (expandItem defs) = .ok items') : ∀ i ∈ items', i.Ready := by
  induction items generalizing items' with
  | nil =>
    cases h
    simp
  | cons i items ih =>
    obtain ⟨first, rest⟩ := List.forall_mem_cons.mp ready
    rw [List.mapM_cons] at h
    obtain ⟨i', one, h⟩ := except_bind_ok h
    obtain ⟨is, more, h⟩ := except_bind_ok h
    cases h
    exact List.forall_mem_cons.mpr ⟨expandItem_ready first one, ih rest more⟩

mutual

theorem expandDecl_ready : {d d' : Decl} → d.Ready → expandDecl defs d = .ok d' → d'.Ready
  | .item i, d', ready, h => by
    obtain ⟨i', expanded, h⟩ := except_bind_ok h
    cases h
    obtain ⟨settled, rangeless⟩ := ready
    rw [Decl.nodes] at settled
    obtain ⟨settled, rangeless⟩ := expandItem_ready ⟨settled, rangeless⟩ expanded
    exact ⟨by rwa [Decl.nodes], rangeless⟩
  | .scope own name ds, d', ⟨settled, rangeless⟩, h => by
    rw [Decl.nodes, settledAll_cons] at settled
    obtain ⟨own', -, h⟩ := except_bind_ok h
    obtain ⟨ds', inner, h⟩ := except_bind_ok h
    cases h
    exact .scope (expandDecls_ready ⟨settled.2, rangeless⟩ inner)
  | .cls own name bases items, d', ⟨settled, rangeless⟩, h => by
    simp only [Decl.nodes, settledAll_cons, settledAll_append] at settled
    obtain ⟨own', -, h⟩ := except_bind_ok h
    obtain ⟨items', inner, h⟩ := except_bind_ok h
    cases h
    refine .cls (expandItems_ready (fun i member => ⟨fun n inside => ?_, rangeless i member⟩) inner)
    exact settled.2.2 n (List.mem_flatMap.mpr ⟨i, member, inside⟩)
  | .abstraction own name target fs, d', ⟨settled, rangeless⟩, h
  | .refurbish own target fs, d', ⟨settled, rangeless⟩, h => by
    rw [Decl.nodes, settledAll_cons] at settled
    obtain ⟨own', -, h⟩ := except_bind_ok h
    cases h
    refine ⟨?_, rangeless⟩
    rw [Decl.withInfo, Decl.nodes]
    exact settledAll_cons.mpr ⟨trivial, settled.2⟩
  | .includes _ _ _ _, d', _, h | .assume _ _ _, d', _, h => by
    obtain ⟨own', -, h⟩ := except_bind_ok h
    cases h
    exact ⟨List.forall_mem_singleton.mpr trivial, trivial⟩
  | .attributeDef _ _ _ _, d', ready, h => by
    cases h
    exact ready

theorem expandDecls_ready : {ds ds' : List Decl} → Decl.ReadyAll ds →
    expandDecls defs ds = .ok ds' → Decl.ReadyAll ds'
  | [], ds', _, h => by
    cases h
    exact .nil
  | d :: ds, ds', ready, h => by
    obtain ⟨first, rest⟩ := Decl.ReadyAll.cons.mp ready
    obtain ⟨d', one, h⟩ := except_bind_ok h
    obtain ⟨more, later, h⟩ := except_bind_ok h
    cases h
    exact Decl.ReadyAll.cons.mpr ⟨expandDecl_ready first one, expandDecls_ready rest later⟩

end

variable (known : List (Span × List String))

mutual

theorem inheritDecl_ready : (d : Decl) → d.Ready → (inheritDecl known d).Ready
  | .scope own name ds, ⟨settled, rangeless⟩ => by
    rw [Decl.nodes, settledAll_cons] at settled
    exact .scope (inheritDecls_ready ds ⟨settled.2, rangeless⟩)
  | .cls own name bases items, ⟨settled, rangeless⟩ => by
    simp only [Decl.nodes, settledAll_cons, settledAll_append] at settled
    refine .cls fun i member => ⟨fun n inside => ?_, rangeless i member⟩
    exact settled.2.2 n (List.mem_flatMap.mpr ⟨i, member, inside⟩)
  | .item _, ready | .includes _ _ _ _, ready | .assume _ _ _, ready | .abstraction _ _ _ _, ready
  | .refurbish _ _ _, ready | .attributeDef _ _ _ _, ready => ready

theorem inheritDecls_ready : (ds : List Decl) → Decl.ReadyAll ds →
    Decl.ReadyAll (inheritDecls known ds)
  | [], ready => ready
  | d :: ds, ready => by
    obtain ⟨first, rest⟩ := Decl.ReadyAll.cons.mp ready
    exact Decl.ReadyAll.cons.mpr ⟨inheritDecl_ready d first, inheritDecls_ready ds rest⟩

end

end Attribute

variable {info} in
theorem File.expand_ready {file file' : File} (ready : Decl.ReadyAll file.decls)
    (h : file.expand (some info) = .ok file') : Decl.ReadyAll file'.decls := by
  obtain ⟨ds, expanded, h⟩ := except_bind_ok h
  cases h
  exact Attribute.inheritDecls_ready _ ds (Attribute.expandDecls_ready ready expanded)

/-! ### Compiling -/

theorem analyze_ready {table : Table} {name src : String} {a : Analysis}
    (h : analyze table name src = .ok a) : Decl.ReadyAll a.file.decls := by
  obtain ⟨file, read, h⟩ := except_bind_ok h
  obtain ⟨info, resolved, h⟩ := except_bind_ok h
  obtain ⟨expanded, expand, h⟩ := except_bind_ok h
  cases h
  have read := mapError_ok read
  have stored : StoredAll (Decl.nodesOf file.decls) := by
    intro n member
    cases n with
    | var d => exact File.read_stored read (List.mem_cons_of_mem _ member)
    | _ => trivial
  obtain ⟨s₁, s₂, s, passed, rfl⟩ := File.read_passed read (mapError_ok resolved)
  exact File.expand_ready (Decl.settleAll_ready _ file.decls stored passed.rangeless)
    (mapError_ok expand)

theorem analyze_emits {table : Table} {name src : String} {e : EmitError} :
    analyze table name src ≠ .error (.emit e) := by
  intro failed
  rcases except_bind_error failed with failed | ⟨_, _, failed⟩
  · obtain ⟨_, _, same⟩ := mapError_error failed
    cases same
  rcases except_bind_error failed with failed | ⟨_, _, failed⟩
  · obtain ⟨_, _, same⟩ := mapError_error failed
    cases same
  rcases except_bind_error failed with failed | ⟨_, _, failed⟩
  · obtain ⟨_, _, same⟩ := mapError_error failed
    cases same
  · cases failed

/-- What is analyzed has all its storages settled and its ranges in place, so that compiling never
fails for the lack of one. -/
theorem compile_settled (table : Table) (o : CompileOptions) (name src : String) :
    (∀ a, analyze table name src = .ok a →
      (∀ n ∈ a.file.nodes, n.Settled) ∧ Decl.RangelessAll a.file.decls) ∧
    ∀ e, compile table o name src = .error (.emit e) →
      (∀ x, e.cause ≠ .unresolvedStorage x) ∧ e.cause ≠ .misplacedRange := by
  constructor
  · intro a analyzed
    obtain ⟨settled, rangeless⟩ := analyze_ready analyzed
    exact ⟨settledAll_cons.mpr ⟨trivial, settled⟩, rangeless⟩
  · intro e failed
    have only : ∃ x, e.cause = .newReference x := by
      rcases except_bind_error failed with early | ⟨a, analyzed, failed⟩
      · exact absurd early analyze_emits
      · rcases except_bind_error failed with failed | ⟨_, _, failed⟩
        · obtain ⟨e', failed, same⟩ := mapError_error failed
          cases same
          exact File.emit_sparing (analyze_ready analyzed) e failed
        · cases failed
    obtain ⟨x, cause⟩ := only
    rw [cause]
    simp

end TastyLang
