import Mathlib.Data.List.Nodup
import Mathlib.Data.List.Perm.Basic
import Mathlib.Data.List.Perm.Subperm
import TastyLang.Proofs.Reading.Marks
import TastyLang.Proofs.Reading.SpanEnds
import TastyLang.Proofs.Resolution.Regimes

/-!
# Zones and keys

The written types that the second pass goes over and those that the third pass goes over are all
written types of a file, each once (`File.zones`). So a type that one pass noted is not noted again
by the other.

What the third pass finds out about a node is kept under the place of the node (`Key`). The pass reads
values outside of functions (`File.values`) and what the functions hold, and in a file that was read
no key belongs to two of these nodes (`File.Zoned`).
-/

namespace TastyLang

/-! ### Written types -/

/-- The place of a node that is a written type. -/
def Node.typeSpan? : Node → Option Span
  | .type t => some t.span
  | _ => none

def typeSpans (ns : List Node) : List Span := ns.filterMap Node.typeSpan?

@[simp] theorem typeSpans_nil : typeSpans [] = [] := rfl

@[simp] theorem typeSpans_append (ns ms : List Node) :
    typeSpans (ns ++ ms) = typeSpans ns ++ typeSpans ms := List.filterMap_append

theorem mem_typeSpans {ns : List Node} {span : Span} :
    span ∈ typeSpans ns ↔ ∃ t, .type t ∈ ns ∧ t.span = span := by
  constructor
  · intro member
    obtain ⟨n, inside, own⟩ := List.mem_filterMap.mp member
    cases n with
    | type t => exact ⟨t, inside, Option.some.inj own⟩
    | _ => cases own
  · rintro ⟨t, inside, rfl⟩
    exact List.mem_filterMap.mpr ⟨.type t, inside, rfl⟩

theorem TypeExpr.type_mem (b : TypeExpr) : .type b ∈ b.nodes := by
  cases b <;> (rw [TypeExpr.nodes.eq_def]; exact List.mem_cons_self)

theorem File.read_typeSpans {table : Table} {name src : String} {file : File}
    (h : File.read table name src = .ok file) : (typeSpans file.nodes).Nodup := by
  have apart := marksOf_apart (File.read_marks h)
  rw [List.Nodup, typeSpans, List.pairwise_filterMap]
  refine apart.imp fun {n m} lt a here b there => ?_
  rintro rfl
  cases n with
  | type t =>
    cases m with
    | type u =>
      have same : t.span = u.span := (Option.some.inj here).trans (Option.some.inj there).symm
      exact absurd (lt _ rfl _ rfl) (by rw [same]; exact Int.lt_irrefl _)
    | _ => cases there
  | _ => cases here

/-! ### Two passes -/

/-- All written types of `ns` are read either early or late. -/
def Splits (early late ns : List Node) : Prop :=
  (typeSpans early ++ typeSpans late).Perm (typeSpans ns)

namespace Splits

variable {early late ns early' late' ns' : List Node}

theorem of_early (ns : List Node) : Splits ns [] ns := by
  rw [Splits, typeSpans_nil, List.append_nil]

theorem of_late (ns : List Node) : Splits [] ns ns := .refl _

theorem append (h : Splits early late ns) (h' : Splits early' late' ns') :
    Splits (early ++ early') (late ++ late') (ns ++ ns') := by
  have both : ((typeSpans early ++ typeSpans late) ++ (typeSpans early' ++ typeSpans late')).Perm
      (typeSpans ns ++ typeSpans ns') := List.Perm.append h h'
  unfold Splits
  simp only [typeSpans_append]
  refine .trans ?_ both
  simp only [List.append_assoc]
  refine .append_left _ ?_
  simp only [← List.append_assoc]
  exact .append_right _ List.perm_append_comm

theorem both (ns ms : List Node) : Splits ns ms (ns ++ ms) := by
  simpa using (of_early ns).append (of_late ms)

theorem flatMap {α : Type} {xs : List α} {early late nodes : α → List Node}
    (each : ∀ x, Splits (early x) (late x) (nodes x)) :
    Splits (xs.flatMap early) (xs.flatMap late) (xs.flatMap nodes) := by
  induction xs with
  | nil => exact .refl _
  | cons x xs ih =>
    simp only [List.flatMap_cons]
    exact (each x).append ih

end Splits

theorem FuncDecl.splits (f : FuncDecl) : Splits f.early f.late f.nodes := by
  have params : Splits (f.params.flatMap fun q => q.type.nodes)
      (f.params.flatMap fun q => nodesIn Expr.nodes q.value) (f.params.flatMap Param.nodes) :=
    .flatMap fun q => .both _ _
  have whole := params.append (.both (nodesIn TypeExpr.nodes f.result) (nodesIn Block.nodes f.body))
  rw [← List.append_assoc] at whole
  exact whole

theorem Item.splits : (i : Item) → Splits i.early i.late i.nodes
  | .var d => by
    have same : typeSpans (Item.var d).early = typeSpans (nodesIn TypeExpr.nodes d.type) := by
      simp only [Item.early]
      cases d.type <;> rfl
    rw [Splits, same]
    exact Splits.both (nodesIn TypeExpr.nodes d.type) (nodesIn Expr.nodes d.value)
  | .func f => f.splits
  | .enum d => .of_late _
  | .inject _ _ => .refl _

mutual

theorem Decl.splits : (d : Decl) → Splits d.early d.late d.nodes
  | .item i => by
    rw [Decl.nodes]
    exact i.splits
  | .scope _ _ ds => by
    rw [Decl.nodes]
    exact Decl.splitsOf ds
  | .cls _ _ bases items => by
    rw [Decl.nodes]
    exact (Splits.of_early (TypeExpr.nodesOf bases)).append (.flatMap Item.splits)
  | .abstraction _ _ target fs | .refurbish _ target fs => by
    rw [Decl.nodes]
    exact (Splits.of_early target.nodes).append (.flatMap FuncDecl.splits)
  | .includes _ _ _ _ | .assume _ _ _ | .attributeDef _ _ _ _ => by
    rw [Decl.nodes]
    exact .refl _

theorem Decl.splitsOf : (ds : List Decl) →
    Splits (Decl.earlyOf ds) (Decl.lateOf ds) (Decl.nodesOf ds)
  | [] => .refl _
  | d :: ds => by
    rw [Decl.nodesOf]
    exact (Decl.splits d).append (Decl.splitsOf ds)

end

theorem File.zones {table : Table} {name src : String} {file : File}
    (h : File.read table name src = .ok file) :
    (typeSpans file.early ++ typeSpans file.late).Nodup :=
  (Decl.splitsOf file.decls).nodup_iff.mpr (File.read_typeSpans h)

/-! ### Keys -/

inductive Key where
  | expr (span : Span)
  | type (span : Span)
  | var (span : Span)
  deriving DecidableEq

def Node.key? : Node → Option Key
  | .expr e => some (.expr e.span)
  | .type t => some (.type t.span)
  | .var d => some (.var d.info.span)
  | _ => none

def keysOf (ns : List Node) : List Key := ns.filterMap Node.key?

@[simp] theorem keysOf_nil : keysOf [] = [] := rfl

@[simp] theorem keysOf_append (ns ms : List Node) : keysOf (ns ++ ms) = keysOf ns ++ keysOf ms :=
  List.filterMap_append

@[simp] theorem keysOf_cons (n : Node) (ns : List Node) :
    keysOf (n :: ns) = n.key?.toList ++ keysOf ns := by
  unfold keysOf
  rw [List.filterMap_cons]
  cases n.key? <;> rfl

theorem mem_keysOf {ns : List Node} {k : Key} : k ∈ keysOf ns ↔ ∃ n ∈ ns, n.key? = some k :=
  List.mem_filterMap

theorem Expr.own_key (e : Expr) : .expr e.span ∈ keysOf e.nodes := by
  rw [Expr.nodes.eq_def]
  exact List.mem_cons_self

theorem TypeExpr.own_key (t : TypeExpr) : .type t.span ∈ keysOf t.nodes :=
  mem_keysOf.mpr ⟨_, t.type_mem, rfl⟩

theorem File.read_keys {table : Table} {name src : String} {file : File}
    (h : File.read table name src = .ok file) : (keysOf file.nodes).Nodup := by
  rw [List.Nodup, keysOf, List.pairwise_filterMap]
  refine ((File.read_apart h).and (marksOf_apart (File.read_marks h))).imp fun {n m} apart => ?_
  obtain ⟨spans, marks⟩ := apart
  intro k here k' there same
  subst same
  -- expressions differ in their spans, written types and variables in their marks
  cases n with
  | expr x =>
    cases m with
    | expr y => exact spans x y rfl rfl (Key.expr.inj (Option.some.inj (here.trans there.symm)))
    | type t => exact nomatch here.trans there.symm
    | var d => exact nomatch here.trans there.symm
    | _ => cases there
  | type t =>
    cases m with
    | type u =>
      have same : t.span = u.span := Key.type.inj (Option.some.inj (here.trans there.symm))
      exact absurd (marks _ rfl _ rfl) (by rw [same]; exact Int.lt_irrefl _)
    | expr x => exact nomatch here.trans there.symm
    | var d => exact nomatch here.trans there.symm
    | _ => cases there
  | var d =>
    cases m with
    | var e =>
      have same : d.info.span = e.info.span := Key.var.inj (Option.some.inj (here.trans there.symm))
      exact absurd (marks _ rfl _ rfl) (by rw [same]; exact Int.lt_irrefl _)
    | expr x => exact nomatch here.trans there.symm
    | type t => exact nomatch here.trans there.symm
    | _ => cases there
  | _ => cases here

/-! ### Values outside of functions -/

/-- The values of an item, with the variable itself if its type is inferred from its value. -/
def Item.values : Item → List Node
  | .var d => (if d.type.isNone then [.var d] else []) ++ nodesIn Expr.nodes d.value
  | .enum d => d.members.flatMap fun m => nodesIn Expr.nodes m.value
  | .func _ | .inject _ _ => []

mutual

def Decl.values : Decl → List Node
  | .item i => i.values
  | .scope _ _ ds => Decl.valuesOf ds
  | .cls _ _ _ items => items.flatMap Item.values
  | .abstraction _ _ _ _ | .refurbish _ _ _ | .includes _ _ _ _ | .assume _ _ _
  | .attributeDef _ _ _ _ => []

def Decl.valuesOf : List Decl → List Node
  | [] => []
  | d :: ds => d.values ++ Decl.valuesOf ds

end

theorem Decl.valuesOf_eq (ds : List Decl) : Decl.valuesOf ds = ds.flatMap Decl.values := by
  induction ds with
  | nil => rfl
  | cons d ds ih => rw [Decl.valuesOf, ih, List.flatMap_cons]

def File.values (file : File) : List Node := Decl.valuesOf file.decls

def FuncDecl.lateOf (fs : List FuncDecl) : List Node := fs.flatMap FuncDecl.late

theorem FuncDecl.lateOf_append (fs gs : List FuncDecl) : lateOf (fs ++ gs) = lateOf fs ++ lateOf gs :=
  List.flatMap_append

/-- The third pass reads the values and, apart from them, the nodes of the functions. -/
def Gathers (late values : List Node) (fs : List FuncDecl) : Prop :=
  (values ++ FuncDecl.lateOf fs).Subperm late

namespace Gathers

variable {late late' values values' : List Node} {fs fs' : List FuncDecl}

theorem of_values (fewer : values.Sublist late) : Gathers late values [] := by
  rw [Gathers, FuncDecl.lateOf, List.flatMap_nil, List.append_nil]
  exact fewer.subperm

theorem of_funcs (fs : List FuncDecl) : Gathers (FuncDecl.lateOf fs) [] fs := List.Subperm.refl _

theorem append (h : Gathers late values fs) (h' : Gathers late' values' fs') :
    Gathers (late ++ late') (values ++ values') (fs ++ fs') := by
  have both : ((values ++ FuncDecl.lateOf fs) ++ (values' ++ FuncDecl.lateOf fs')).Subperm
      (late ++ late') := List.Subperm.append h h'
  rw [Gathers, FuncDecl.lateOf_append]
  refine List.Perm.subperm ?_ |>.trans both
  simp only [List.append_assoc]
  refine .append_left _ ?_
  simp only [← List.append_assoc]
  exact .append_right _ List.perm_append_comm

theorem flatMap {α : Type} {xs : List α} {late values : α → List Node} {fs : α → List FuncDecl}
    (each : ∀ x, Gathers (late x) (values x) (fs x)) :
    Gathers (xs.flatMap late) (xs.flatMap values) (xs.flatMap fs) := by
  induction xs with
  | nil => exact List.Subperm.refl _
  | cons x xs ih =>
    simp only [List.flatMap_cons]
    exact (each x).append ih

end Gathers

theorem Item.gathers : (i : Item) → Gathers i.late i.values i.funcs
  | .var d => by
    refine .of_values ?_
    rw [Item.values]
    split
    · exact .refl _
    · exact List.sublist_cons_self _ _
  | .func f => by
    have own : FuncDecl.lateOf [f] = f.late := List.append_nil _
    have whole := Gathers.of_funcs [f]
    rw [own] at whole
    exact whole
  | .enum _ => .of_values (List.Sublist.refl _)
  | .inject _ _ => List.Subperm.refl _

mutual

theorem Decl.gathers : (d : Decl) → Gathers d.late d.values d.funcs
  | .item i => i.gathers
  | .scope _ _ ds => Decl.gathersOf ds
  | .cls _ _ _ _ => .flatMap Item.gathers
  | .abstraction _ _ _ fs | .refurbish _ _ fs => .of_funcs fs
  | .includes _ _ _ _ | .assume _ _ _ | .attributeDef _ _ _ _ => List.Subperm.refl _

theorem Decl.gathersOf : (ds : List Decl) →
    Gathers (Decl.lateOf ds) (Decl.valuesOf ds) (Decl.funcsOf ds)
  | [] => List.Subperm.refl _
  | d :: ds => (Decl.gathers d).append (Decl.gathersOf ds)

end

/-! ### What is read late stands in the order of the text -/

theorem sublist_flatMap {α β : Type} {f g : α → List β} {xs : List α}
    (each : ∀ x, (f x).Sublist (g x)) : (xs.flatMap f).Sublist (xs.flatMap g) := by
  induction xs with
  | nil => exact .refl _
  | cons x xs ih =>
    simp only [List.flatMap_cons]
    exact (each x).append ih

theorem FuncDecl.late_sublist (f : FuncDecl) : f.late.Sublist f.nodes := by
  have params : (f.params.flatMap fun q => nodesIn Expr.nodes q.value).Sublist
      (f.params.flatMap Param.nodes) := sublist_flatMap fun _ => List.sublist_append_right _ _
  rw [FuncDecl.nodes, List.append_assoc]
  refine (params.append ?_).cons _
  exact List.sublist_append_right _ _

theorem Item.late_sublist (i : Item) : i.late.Sublist i.nodes := by
  cases i with
  | var d => exact (List.sublist_append_right _ _).cons_cons _
  | func f => exact f.late_sublist
  | enum d => exact (List.Sublist.refl _).cons _
  | inject info text => exact List.nil_sublist _

mutual

theorem Decl.late_sublist : (d : Decl) → d.late.Sublist d.nodes
  | .item i => by
    rw [Decl.nodes]
    exact i.late_sublist
  | .scope _ _ ds => by
    rw [Decl.nodes]
    exact (Decl.lateOf_sublist ds).cons _
  | .cls _ _ bases items => by
    rw [Decl.nodes]
    refine .cons _ (List.Sublist.trans ?_ (List.sublist_append_right _ _))
    exact sublist_flatMap Item.late_sublist
  | .abstraction _ _ target fs | .refurbish _ target fs => by
    rw [Decl.nodes]
    refine .cons _ (List.Sublist.trans ?_ (List.sublist_append_right _ _))
    exact sublist_flatMap FuncDecl.late_sublist
  | .includes _ _ _ _ | .assume _ _ _ | .attributeDef _ _ _ _ => List.nil_sublist _

theorem Decl.lateOf_sublist : (ds : List Decl) → (Decl.lateOf ds).Sublist (Decl.nodesOf ds)
  | [] => .refl _
  | d :: ds => (Decl.late_sublist d).append (Decl.lateOf_sublist ds)

end

/-! ### What is read at all -/

/-- A part of a declaration: a function, or anything that a pass goes over. -/
def Node.isPart : Node → Bool
  | .file _ | .decl _ | .enum _ | .inject _ => false
  | .var _ | .func _ | .type _ | .block _ | .stmt _ | .expr _ => true

/-- A part is read by the second pass, or by the third as a value or in a function, or it is a function
itself. -/
def Node.Read (early values : List Node) (fs : List FuncDecl) (n : Node) : Prop :=
  n ∈ early ∨ n ∈ values ∨ ∃ f ∈ fs, n = .func f ∨ n ∈ f.late

theorem Node.Read.mono {early early' values values' : List Node} {fs fs' : List FuncDecl} {n : Node}
    (h : n.Read early values fs) (more : ∀ n ∈ early, n ∈ early') (more' : ∀ n ∈ values, n ∈ values')
    (more'' : ∀ f ∈ fs, f ∈ fs') : n.Read early' values' fs' :=
  h.imp (more n) (.imp (more' n) fun ⟨f, listed, member⟩ => ⟨f, more'' f listed, member⟩)

theorem FuncDecl.nodes_read {f : FuncDecl} {n : Node} (member : n ∈ f.nodes) :
    n.Read f.early [] [f] := by
  simp only [FuncDecl.nodes, List.mem_cons, List.mem_append, List.mem_flatMap, Param.nodes] at member
  simp only [Node.Read, FuncDecl.early, FuncDecl.late, List.mem_append, List.mem_flatMap,
    List.mem_singleton, exists_eq_left]
  rcases member with rfl | (⟨q, listed, member | member⟩ | member) | member
  · exact .inr (.inr (.inl rfl))
  · exact .inl (.inl ⟨q, listed, member⟩)
  · exact .inr (.inr (.inr (.inl ⟨q, listed, member⟩)))
  · exact .inl (.inr member)
  · exact .inr (.inr (.inr (.inr member)))

theorem FuncDecl.nodesOf_read {fs : List FuncDecl} {n : Node} (member : n ∈ fs.flatMap FuncDecl.nodes) :
    n.Read (fs.flatMap FuncDecl.early) [] fs := by
  obtain ⟨f, listed, member⟩ := List.mem_flatMap.mp member
  refine (FuncDecl.nodes_read member).mono (fun n h => ?_) (fun n h => h) fun g h => ?_
  · exact List.mem_flatMap.mpr ⟨f, listed, h⟩
  · exact List.mem_singleton.mp h ▸ listed

theorem Item.nodes_read {n : Node} (part : n.isPart) : (i : Item) → n ∈ i.nodes →
    n.Read i.early i.values i.funcs
  | .var d, member => by
    rw [Item.nodes, VarDecl.nodes] at member
    rcases List.mem_cons.mp member with rfl | member
    · cases written : d.type with
      | none =>
        refine .inr (.inl ?_)
        rw [Item.values, written]
        exact List.mem_cons_self
      | some te =>
        rw [Item.early, written]
        exact .inl List.mem_cons_self
    · rcases List.mem_append.mp member with member | member
      · cases written : d.type with
        | none =>
          rw [written] at member
          cases member
        | some te =>
          rw [written] at member
          rw [Item.early, written]
          exact .inl (List.mem_cons_of_mem _ member)
      · exact .inr (.inl (List.mem_append_right _ member))
  | .func f, member => FuncDecl.nodes_read member
  | .enum d, member => by
    rw [Item.nodes, EnumDecl.nodes] at member
    rcases List.mem_cons.mp member with rfl | member
    · cases part
    · exact .inr (.inl member)
  | .inject info text, member => by
    obtain rfl := List.mem_singleton.mp member
    cases part

mutual

theorem Decl.nodes_read {n : Node} (part : n.isPart) : (d : Decl) → n ∈ d.nodes →
    n.Read d.early d.values d.funcs
  | .item i, member => by
    rw [Decl.nodes] at member
    exact Item.nodes_read part i member
  | .scope _ _ ds, member => by
    rw [Decl.nodes] at member
    rcases List.mem_cons.mp member with rfl | member
    · cases part
    · exact Decl.nodesOf_read part ds member
  | .cls _ _ bases items, member => by
    rw [Decl.nodes] at member
    rcases List.mem_cons.mp member with rfl | member
    · cases part
    · rcases List.mem_append.mp member with member | member
      · exact .inl (List.mem_append_left _ member)
      · obtain ⟨i, listed, member⟩ := List.mem_flatMap.mp member
        refine (Item.nodes_read part i member).mono (fun n h => ?_) (fun n h => ?_) fun f h => ?_
        · exact List.mem_append_right _ (List.mem_flatMap.mpr ⟨i, listed, h⟩)
        · exact List.mem_flatMap.mpr ⟨i, listed, h⟩
        · exact List.mem_flatMap.mpr ⟨i, listed, h⟩
  | .abstraction _ _ target fs, member | .refurbish _ target fs, member => by
    rw [Decl.nodes] at member
    rcases List.mem_cons.mp member with rfl | member
    · cases part
    · rcases List.mem_append.mp member with member | member
      · exact .inl (List.mem_append_left _ member)
      · refine (FuncDecl.nodesOf_read member).mono (fun n h => ?_) (fun n h => (nomatch h))
          fun f h => h
        exact List.mem_append_right _ h
  | .includes _ _ _ _, member | .assume _ _ _, member | .attributeDef _ _ _ _, member => by
    rw [Decl.nodes] at member
    obtain rfl := List.mem_singleton.mp member
    cases part

theorem Decl.nodesOf_read {n : Node} (part : n.isPart) : (ds : List Decl) → n ∈ Decl.nodesOf ds →
    n.Read (Decl.earlyOf ds) (Decl.valuesOf ds) (Decl.funcsOf ds)
  | d :: ds, member => by
    rw [Decl.nodesOf] at member
    rcases List.mem_append.mp member with member | member
    · exact (Decl.nodes_read part d member).mono (fun n h => List.mem_append_left _ h)
        (fun n h => List.mem_append_left _ h) fun f h => List.mem_append_left _ h
    · exact (Decl.nodesOf_read part ds member).mono (fun n h => List.mem_append_right _ h)
        (fun n h => List.mem_append_right _ h) fun f h => List.mem_append_right _ h

end

/-- No key belongs to two nodes that the third pass reads. -/
structure File.Zoned (file : File) : Prop where
  values : (keysOf file.values).Nodup
  late : ∀ f ∈ file.funcs, (keysOf f.late).Nodup
  outside : ∀ f ∈ file.funcs, ∀ k ∈ keysOf f.late, k ∉ keysOf file.values
  apart : ∀ f ∈ file.funcs, ∀ g ∈ file.funcs, f ≠ g → ∀ k ∈ keysOf f.late, k ∉ keysOf g.late
  vars : ∀ d e, .var d ∈ file.nodes → .var e ∈ file.nodes → d.info.span = e.info.span → d = e

theorem File.read_zoned {table : Table} {name src : String} {file : File}
    (h : File.read table name src = .ok file) : file.Zoned := by
  have late : (keysOf file.late).Nodup := by
    refine (File.read_keys h).sublist (List.Sublist.filterMap _ ?_)
    exact (Decl.lateOf_sublist file.decls).cons _
  have gathered : (keysOf file.values ++ keysOf (FuncDecl.lateOf file.funcs)).Nodup := by
    rw [← keysOf_append]
    obtain ⟨read, perm, sub⟩ := Decl.gathersOf file.decls
    exact (perm.filterMap _).nodup_iff.mp (late.sublist (sub.filterMap _))
  obtain ⟨values, funcs, outside⟩ := List.nodup_append.mp gathered
  have each : keysOf (FuncDecl.lateOf file.funcs) = file.funcs.flatMap fun f => keysOf f.late :=
    List.filterMap_flatMap
  rw [each] at funcs outside
  obtain ⟨own, disjoint⟩ := List.nodup_flatMap.mp funcs
  have apart : file.funcs.Pairwise fun f g => (keysOf f.late).Disjoint (keysOf g.late) := disjoint
  refine ⟨values, own, fun f listed k here there => ?_, fun f listed g listed' differ k here there => ?_,
    fun d e here there same => ?_⟩
  · exact outside k there k (List.mem_flatMap.mpr ⟨f, listed, here⟩) rfl
  · have forwards : file.funcs.Pairwise fun f g => f ≠ g → (keysOf f.late).Disjoint (keysOf g.late) := by
      refine apart.imp fun disjoint => ?_
      exact fun _ => disjoint
    have backwards : file.funcs.Pairwise
        (flip fun f g => f ≠ g → (keysOf f.late).Disjoint (keysOf g.late)) := by
      refine apart.imp fun disjoint => ?_
      intro _ k there here
      exact disjoint here there
    exact List.Pairwise.forall_of_forall_of_flip (fun f _ differ => absurd rfl differ) forwards
      backwards listed listed' differ here there
  · have place : (Node.var e).place? = some d.info.span.start.offset := by
      rw [same]
      rfl
    exact Node.var.inj (marksOf_inj (File.read_marks h) here there rfl place)

end TastyLang
