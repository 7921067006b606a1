import TastyLang.Proofs.Compilation.Keeping
import TastyLang.Proofs.Evaluation
import TastyLang.Proofs.Include.Asking
import TastyLang.Proofs.Resolution.WrittenNames

/-!
# What the types of a unit need

The collector goes over written types and over resolved ones. A unit shows resolved types, so what a
written type asks for has to cover what the type needs that it stands for. It does where each name asks for
what the symbols need that go by it (`Context.Apt`), and then the includes have all that the types of the
unit need (`compile_covers_types`). A binding inside of a namespace that is named from outside asks for
nothing (`compile_lacks_scoped_binding`).
-/

namespace TastyLang

theorem append_subset_both {α : Type} {xs xs' ys ys' : List α} (h : xs ⊆ xs') (h' : ys ⊆ ys') :
    xs ++ ys ⊆ xs' ++ ys' :=
  List.append_subset.mpr
    ⟨List.Subset.trans h (List.subset_append_left _ _), List.Subset.trans h' (List.subset_append_right _ _)⟩

theorem Table.primitive?_name {table : Table} {name : String} {p : Primitive}
    (found : table.primitive? name = some p) : p.name = name := by
  have same := List.find?_some found
  exact eq_of_beq same

def Table.headers (table : Table) (t : Ty) : List IncludeEntry := (⟨table, none, ""⟩ : Include.Context).ty t

namespace Include.Context

variable {c : Context}

/-! ### What resolved types need -/

mutual

theorem ty_eq_headers : (t : Ty) → c.ty t = c.table.headers t
  | .tuple elems => by
    rw [Table.headers, ty, ty, tys_eq_headers elems]
    rfl
  | .smart elem _ => by
    rw [Table.headers, ty, ty, ty_eq_headers elem]
    rfl
  | .func params result => by
    rw [Table.headers, ty, ty, tys_eq_headers params, ty_eq_headers result]
    rfl
  | .template base args => by
    rw [Table.headers, ty, ty, tys_eq_headers args]
    rfl
  | .pointer elem _ | .reference elem _ | .range elem => by
    rw [Table.headers, ty, ty, ty_eq_headers elem]
    rfl
  | .via _ t => by
    rw [Table.headers, ty, ty, ty_eq_headers t]
    rfl
  | .prim _ | .cls _ _ | .enum _ | .unknown _ | .void | .null | .scope _ | .invalid | .absent => rfl

theorem tys_eq_headers : (ts : List Ty) → c.tys ts = (⟨c.table, none, ""⟩ : Context).tys ts
  | [] => rfl
  | t :: ts => by
    rw [tys, tys, ty_eq_headers t, tys_eq_headers ts]
    rfl

end

mutual

theorem ty_bare : (t : Ty) → c.ty t.bare = c.ty t
  | .tuple elems => by rw [Ty.bare, ty, ty, tys_bare elems]
  | .smart elem _ => by rw [Ty.bare, ty, ty, ty_bare elem]
  | .func params result => by rw [Ty.bare, ty, ty, tys_bare params, ty_bare result]
  | .template base args => by rw [Ty.bare, ty, ty, tys_bare args, Ty.name_bare]
  | .pointer elem _ | .reference elem _ | .range elem => by rw [Ty.bare, ty, ty, ty_bare elem]
  | .via _ t => by
    rw [Ty.bare, ty]
    exact ty_bare t
  | .prim _ | .cls _ _ | .enum _ | .unknown _ | .void | .null | .scope _ | .invalid | .absent => rfl

theorem tys_bare : (ts : List Ty) → c.tys (Ty.bareAll ts) = c.tys ts
  | [] => rfl
  | t :: ts => by rw [Ty.bareAll, tys, tys, ty_bare t, tys_bare ts]

end

theorem ty_core (t : Ty) : c.ty t.core = c.ty t := by
  rw [← ty_bare, Ty.bare_core, ty_bare]

theorem ty_pointerTo (t : Ty) (level : Nat) : c.ty (t.pointerTo level) = c.ty t := by
  unfold Ty.pointerTo
  split
  · rfl
  · split
    · next elem n shape => rw [← ty_core t, shape, ty, ty]
    · rw [ty]

theorem ty_shared_subset (t : Ty) (n : Nat) :
    c.ty (t.shared n) ⊆ (if 0 < n then c.feature "shared" else []) ++ c.ty t := by
  induction n with
  | zero => exact List.Subset.refl _
  | succ n ih =>
    rw [Ty.shared, ty, if_pos (Nat.succ_pos n)]
    refine List.append_subset.mpr ⟨List.subset_append_left _ _, List.Subset.trans ih ?_⟩
    split
    · exact List.Subset.refl _
    · exact List.subset_append_right _ _

theorem ty_typeOf_subset (s : Storage) (t : Ty) : c.ty (s.typeOf t) ⊆ c.storage s ++ c.ty t := by
  unfold Storage.typeOf storage
  cases s.kind with
  | reference isConst => rw [ty]; exact List.subset_append_right _ _
  | rawPointer level =>
    refine List.Subset.trans (ty_shared_subset _ _) ?_
    have pointee : c.ty (if t.isPointer then t else .pointer t 1) = c.ty t := by
      split
      · rfl
      · rw [ty]
    simp only [pointee, Nat.sub_pos_iff_lt]
    exact List.Subset.refl _
  | shared =>
    dsimp only
    split
    · exact List.subset_append_right _ _
    · rw [ty]; exact List.Subset.refl _
  | unique =>
    dsimp only
    split
    · exact List.subset_append_right _ _
    · rw [ty]; exact List.Subset.refl _
  | unresolved | value | moved => exact List.subset_append_right _ _

/-! ### What written types ask for -/

variable (c)

/-- What a name in a written type asks for. -/
def word (name : String) : List IncludeEntry :=
  match c.table.primitive? name with
  | some p => [⟨p.header, false⟩]
  | none =>
    match c.target? name with
    | some t => c.table.headers t
    | none => c.named name

theorem typeExpr_named (span : Span) (name : String) (args : List TypeExpr) (stars : Nat) :
    c.typeExpr (.named span name args stars) = c.word name ++ c.typeExprs args := by
  rw [typeExpr, word]
  cases c.table.primitive? name with
  | some p => rfl
  | none =>
    cases c.target? name with
    | some t =>
      dsimp only
      rw [ty_eq_headers]
    | none => rfl

/-- A name asks for what the type needs that it stands for, alone and in front of arguments. -/
structure Covers (name : String) (t : Ty) : Prop where
  alone : c.table.headers t ⊆ c.word name
  base : c.named t.name ⊆ c.word name

instance (name : String) (t : Ty) : Decidable (c.Covers name t) :=
  decidable_of_iff (c.table.headers t ⊆ c.word name ∧ c.named t.name ⊆ c.word name)
    ⟨fun h => ⟨h.1, h.2⟩, fun h => ⟨h.alone, h.base⟩⟩

/-- A name asks for what each symbol needs that goes by it, and for what it needs if none does. -/
structure Apt (symbols : SymbolTable) (name : String) : Prop where
  own : c.named name ⊆ c.word name
  symbols : ∀ x ∈ symbols.symbols.toList, x.Goes name → x.kind.isWritten = true → ∀ t ∈ x.type,
    c.Covers name t

instance (symbols : SymbolTable) (name : String) : Decidable (c.Apt symbols name) :=
  decidable_of_iff (c.named name ⊆ c.word name ∧ ∀ x ∈ symbols.symbols.toList, x.Goes name →
    x.kind.isWritten = true → ∀ t ∈ x.type, c.Covers name t)
    ⟨fun h => ⟨h.1, h.2⟩, fun h => ⟨h.own, h.symbols⟩⟩

variable {c}

theorem Apt.covers {symbols : SymbolTable} {name : String} {t : Ty} (apt : c.Apt symbols name)
    (gives : symbols.Gives c.table name t) : c.Covers name t := by
  cases gives with
  | @primitive p prim =>
    have own := Table.primitive?_name prim
    have asked : c.word name = [⟨p.header, false⟩] := by rw [word, prim]
    unfold Ty.ofPrimitive
    split
    · next void =>
      obtain rfl : name = "void" := own.symm.trans void
      exact ⟨List.nil_subset _, apt.own⟩
    · subst own
      exact ⟨by rw [asked]; exact List.Subset.refl _, apt.own⟩
  | unknown plain =>
    refine ⟨?_, apt.own⟩
    rw [← ty_eq_headers, ty]
    split
    · exact List.nil_subset _
    · exact apt.own
  | @symbol id t plain goes written type =>
    have lt := Resolution.SymbolKind.known_of_written written
    have listed : symbols.symbol id ∈ symbols.symbols.toList := by
      rw [SymbolTable.symbol, Array.getD_eq_getD_getElem?, Array.getElem?_eq_getElem lt]
      exact Array.getElem_mem_toList lt
    obtain ⟨alone, base⟩ := apt.symbols _ listed goes written t type
    rw [← ty_eq_headers] at alone
    exact ⟨by rwa [← ty_eq_headers, ty_bare], by rwa [Ty.name_bare]⟩

mutual

theorem ty_meaning_subset {names : String → Ty} : (te : TypeExpr) →
    (∀ w ∈ te.words, c.Covers w (names w)) → c.ty (te.meaning names) ⊆ c.typeExpr te
  | .tuple _ elems _, covers => by
    rw [TypeExpr.meaning, ty_pointerTo, ty, typeExpr]
    exact append_subset_both (List.Subset.refl _) (tys_meanings_subset elems covers)
  | .func _ params none _, covers => by
    have inner := tys_meanings_subset params fun w h => covers w (List.mem_append_left _ h)
    simp only [TypeExpr.meaning, ty_pointerTo, ty, typeExpr]
    exact append_subset_both (append_subset_both (List.Subset.refl _) inner)
      (List.Subset.refl _)
  | .func _ params (some r) _, covers => by
    have inner := tys_meanings_subset params fun w h => covers w (List.mem_append_left _ h)
    have result := ty_meaning_subset r fun w h => covers w (List.mem_append_right _ h)
    simp only [TypeExpr.meaning, ty_pointerTo, ty, typeExpr]
    exact append_subset_both (append_subset_both (List.Subset.refl _) inner) result
  | .named _ name args _, covers => by
    have own := covers name List.mem_cons_self
    have inner := tys_meanings_subset args fun w h => covers w (List.mem_cons_of_mem _ h)
    rw [TypeExpr.meaning, ty_pointerTo, typeExpr_named]
    split
    · rw [ty_eq_headers]
      exact List.Subset.trans own.alone (List.subset_append_left _ _)
    · rw [ty]
      exact List.append_subset.mpr ⟨List.Subset.trans inner (List.subset_append_right _ _),
        List.Subset.trans own.base (List.subset_append_left _ _)⟩

theorem tys_meanings_subset {names : String → Ty} : (ts : List TypeExpr) →
    (∀ w ∈ TypeExpr.wordsOf ts, c.Covers w (names w)) →
    c.tys (TypeExpr.meanings names ts) ⊆ c.typeExprs ts
  | [], _ => List.Subset.refl _
  | t :: ts, covers => by
    rw [TypeExpr.meanings, tys, typeExprs]
    exact append_subset_both (ty_meaning_subset t fun w h => covers w (List.mem_append_left _ h))
      (tys_meanings_subset ts fun w h => covers w (List.mem_append_right _ h))

end

end Include.Context

/-! ### The types that a unit shows -/

/-- A type that a unit shows, with the names that are written for it where it is not inferred. -/
structure Shown where
  type : Ty
  words : List String := []

def Node.shown (info : Info) : Node → List Shown
  | .type te => [⟨info.typeOfExpr te, te.words⟩]
  | .var d =>
    match d.type with
    | some te => [⟨info.varType d, te.words⟩]
    | none => [{ type := info.varType d }]
  | _ => []

def FuncDecl.shown (info : Info) (f : FuncDecl) : List Shown :=
  (f.params.map fun q => ⟨q.storage.settled.typeOf (info.typeOfExpr q.type), q.type.words⟩) ++
    (match f.result with
      | some _ => []
      | none => [{ type := info.result f }]) ++
    f.nodes.flatMap (Node.shown info)

def Item.shown (info : Info) : Item → List Shown
  | .func f => f.shown info
  | .var d => d.nodes.flatMap (Node.shown info)
  | .enum d => d.nodes.flatMap (Node.shown info)
  | .inject _ _ => []

mutual

/-- The types of variables, fields, parameters, results, bases, casts and new objects, parts of types
included. Of abstract and refurbish declarations only the functions that they add are shown, with the types
of their receivers. -/
def Decl.shown (info : Info) : Decl → List Shown
  | .item i => i.shown info
  | .scope _ _ ds => Decl.shownOf info ds
  | .cls _ _ bases items =>
    (TypeExpr.nodesOf bases).flatMap (Node.shown info) ++ items.flatMap (Item.shown info)
  | .abstraction _ _ _ fs | .refurbish _ _ fs =>
    fs.flatMap fun f =>
      match info.extensionFor? f with
      | some x => { type := x.self } :: f.shown info
      | none => []
  | .includes _ _ _ _ | .assume _ _ _ | .attributeDef _ _ _ _ => []

def Decl.shownOf (info : Info) : List Decl → List Shown
  | [] => []
  | d :: ds => d.shown info ++ Decl.shownOf info ds

end

/-- The types that the unit of an analysis shows, those of loop variables aside. -/
def Analysis.shown (a : Analysis) : List Shown := Decl.shownOf a.info a.file.decls

/-- Names ask for what they stand for. -/
def Shown.Apt (u : Shown) (c : Include.Context) (symbols : SymbolTable) : Prop :=
  ∀ w ∈ u.words, c.Apt symbols w

/-- What resolution says about written types and about variables with one. -/
structure Info.Serves (info : Info) (table : Table) (ns : List Node) : Prop where
  types : ∀ te, .type te ∈ ns → info.Reads table te
  vars : ∀ d te, .var d ∈ ns → d.type = some te →
    info.Reads table te ∧ info.varType d = d.storage.typeOf (info.typeOfExpr te)

theorem Info.Serves.mono {info : Info} {table : Table} {ns ms : List Node} (serves : info.Serves table ns)
    (subset : ms ⊆ ns) : info.Serves table ms :=
  ⟨fun te node => serves.types te (subset node), fun d te node => serves.vars d te (subset node)⟩

theorem analyze_serves {table : Table} {name src : String} {a : Analysis}
    (analysis : analyze table name src = .ok a) : a.info.Serves table a.file.nodes := by
  obtain ⟨file, read, resolved, kept⟩ := analyze_keeps analysis
  obtain ⟨s₁, s₂, s, passed, same⟩ := File.read_passed read resolved
  rw [← same]
  refine ⟨fun te node => ?_, fun d te node written => ?_⟩
  · obtain ⟨n, listed, alike⟩ := kept _ node rfl
    cases alike
    exact passed.type_stands read listed
  · obtain ⟨n, listed, alike⟩ := kept _ node rfl
    cases alike with
    | refl =>
      exact ⟨passed.type_stands read (file.types_beside d te listed written),
        passed.var_type read listed written⟩
    | var e own place =>
      refine ⟨passed.type_stands read (file.types_beside e te listed written), ?_⟩
      rw [← passed.var_type read listed written, Info.varType, Info.varType, place]

namespace Include.Context

variable {c : Context} {info : Info} {ns : List Node} {u : Shown} {e : IncludeEntry}

theorem ty_subset_of_reads {te : TypeExpr} (reads : info.Reads c.table te)
    (apt : ∀ w ∈ te.words, c.Apt info.symbols w) : c.ty (info.typeOfExpr te) ⊆ c.typeExpr te := by
  obtain ⟨names, bare, gives⟩ := reads
  rw [← ty_bare, bare]
  exact ty_meaning_subset te fun w word => (apt w word).covers (gives w word)

theorem node_covers (known : c.info = some info) (serves : info.Serves c.table ns) {n : Node}
    (node : n ∈ ns) (shown : u ∈ n.shown info) (apt : u.Apt c info.symbols) :
    c.ty u.type ⊆ c.wanted n := by
  cases n with
  | type te =>
    obtain rfl := List.mem_singleton.mp shown
    exact ty_subset_of_reads (serves.types te node) apt
  | var d =>
    rw [wanted, declared]
    rw [Node.shown] at shown
    cases written : d.type with
    | none =>
      rw [written] at shown
      obtain rfl := List.mem_singleton.mp shown
      rw [known]
      exact List.subset_append_right _ _
    | some te =>
      rw [written] at shown
      obtain rfl := List.mem_singleton.mp shown
      obtain ⟨reads, type⟩ := serves.vars d te node written
      dsimp only
      rw [type]
      exact List.Subset.trans (ty_typeOf_subset _ _)
        (append_subset_both (List.Subset.refl _) (ty_subset_of_reads reads apt))
  | _ => cases shown

theorem nodes_cover (known : c.info = some info) (serves : info.Serves c.table ns) {es : List IncludeEntry}
    (asked : ∀ n ∈ ns, c.wanted n ⊆ es) (shown : u ∈ ns.flatMap (Node.shown info))
    (apt : u.Apt c info.symbols) : c.ty u.type ⊆ es := by
  obtain ⟨n, node, shown⟩ := List.mem_flatMap.mp shown
  exact List.Subset.trans (node_covers known serves node shown apt) (asked n node)

theorem storage_settled (s : Storage) : c.storage s.settled = c.storage s := by
  unfold Storage.settled
  split
  · next plain =>
    have kind : s.kind = .unresolved := eq_of_beq plain
    rw [storage, storage, kind]
    rfl
  · rfl

theorem function_covers (known : c.info = some info) {f : FuncDecl} (serves : info.Serves c.table f.nodes)
    (shown : u ∈ f.shown info) (apt : u.Apt c info.symbols) : c.ty u.type ⊆ c.head true f ++ c.body f := by
  rw [FuncDecl.shown] at shown
  rcases List.mem_append.mp shown with shown | shown
  · refine List.Subset.trans ?_ (List.subset_append_left _ _)
    rcases List.mem_append.mp shown with shown | shown
    · obtain ⟨q, param, rfl⟩ := List.mem_map.mp shown
      have node : .type q.type ∈ f.nodes := List.mem_cons_of_mem _ (List.mem_append_left _
        (List.mem_append_left _ (List.mem_flatMap.mpr ⟨q, param, List.mem_append_left _ q.type.type_mem⟩)))
      have held := ty_subset_of_reads (serves.types q.type node) apt
      intro e needs
      have asked := append_subset_both (List.Subset.refl _) held (ty_typeOf_subset _ _ needs)
      rw [storage_settled] at asked
      exact List.mem_append_left _ (List.mem_flatMap.mpr ⟨q, param, List.mem_append_left _ asked⟩)
    · cases written : f.result with
      | some t =>
        rw [written] at shown
        cases shown
      | none =>
        rw [written] at shown
        obtain rfl := List.mem_singleton.mp shown
        rw [head, written, known]
        exact List.subset_append_right _ _
  · exact nodes_cover known serves (fun n node e wants => mem_function node wants) shown apt

theorem item_covers (known : c.info = some info) {i : Item} (serves : info.Serves c.table i.nodes)
    (shown : u ∈ i.shown info) (apt : u.Apt c info.symbols) (needs : e ∈ c.ty u.type)
    (inClass visible : Bool) : ∃ b, (e, b) ∈ c.item inClass visible i := by
  -- what the parts of an item ask for stands behind what it requests itself
  cases i with
  | func f =>
    rcases List.mem_append.mp (function_covers known serves shown apt needs) with asked | asked
    · exact ⟨_, List.mem_append_right _ (List.mem_append_left _ (mem_placed.mpr ⟨asked, rfl⟩))⟩
    · exact ⟨_, List.mem_append_right _ (List.mem_append_right _ (mem_placed.mpr ⟨asked, rfl⟩))⟩
  | var d =>
    have asked := nodes_cover known serves (fun n node e wants => mem_variable node wants) shown apt needs
    rcases List.mem_append.mp asked with asked | asked
    · exact ⟨_, List.mem_append_right _ (List.mem_append_left _ (mem_placed.mpr ⟨asked, rfl⟩))⟩
    · exact ⟨_, List.mem_append_right _ (List.mem_append_right _ (mem_placed.mpr ⟨asked, rfl⟩))⟩
  | enum d =>
    have asked := nodes_cover known serves (fun n node e wants => mem_enumeration node wants) shown apt needs
    exact ⟨_, List.mem_append_right _ (mem_placed.mpr ⟨asked, rfl⟩)⟩
  | inject own text => cases shown

theorem extension_covers (known : c.info = some info) {fs : List FuncDecl}
    (serves : info.Serves c.table (fs.flatMap FuncDecl.nodes))
    (shown : u ∈ fs.flatMap fun f =>
      match info.extensionFor? f with
      | some x => { type := x.self } :: f.shown info
      | none => []) (apt : u.Apt c info.symbols) (needs : e ∈ c.ty u.type) (visible : Bool) :
    ∃ b, (e, b) ∈ c.added fs visible := by
  obtain ⟨f, function, shown⟩ := List.mem_flatMap.mp shown
  have inside : f.nodes ⊆ fs.flatMap FuncDecl.nodes :=
    fun n node => List.mem_flatMap.mpr ⟨f, function, node⟩
  suffices ∃ b, (e, b) ∈ match info.extensionFor? f with
      | some x => placed visible (c.ty x.self) ++ c.func f visible
      | none => [] by
    obtain ⟨b, found⟩ := this
    refine ⟨b, List.mem_flatMap.mpr ⟨f, function, ?_⟩⟩
    rw [known]
    exact found
  cases found : info.extensionFor? f with
  | none =>
    rw [found] at shown
    cases shown
  | some x =>
    rw [found] at shown
    rcases List.mem_cons.mp shown with rfl | shown
    · exact ⟨_, List.mem_append_left _ (mem_placed.mpr ⟨needs, rfl⟩)⟩
    · rcases List.mem_append.mp (function_covers known (serves.mono inside) shown apt needs) with asked | asked
      · exact ⟨_, List.mem_append_right _ (List.mem_append_left _ (mem_placed.mpr ⟨asked, rfl⟩))⟩
      · exact ⟨_, List.mem_append_right _ (List.mem_append_right _ (mem_placed.mpr ⟨asked, rfl⟩))⟩

mutual

theorem decl_covers (known : c.info = some info) : (visible : Bool) → (d : Decl) →
    info.Serves c.table d.nodes → u ∈ d.shown info → u.Apt c info.symbols → e ∈ c.ty u.type →
    ∃ b, (e, b) ∈ c.decl visible d
  | visible, .item i, serves, shown, apt, needs => by
    rw [Decl.nodes] at serves
    rw [Decl.shown] at shown
    rw [decl]
    exact item_covers known serves shown apt needs false visible
  | visible, .scope own name ds, serves, shown, apt, needs => by
    rw [Decl.shown] at shown
    obtain ⟨b, found⟩ := decls_cover known (visible && !own.generated.noHeader) ds
      (serves.mono (List.subset_cons_self _ _)) shown apt needs
    rw [decl]
    exact ⟨b, List.mem_append_right _ found⟩
  | visible, .cls own name bases items, serves, shown, apt, needs => by
    rw [Decl.nodes] at serves
    rw [Decl.shown] at shown
    rw [decl]
    rcases List.mem_append.mp shown with shown | shown
    · have inside := serves.mono (List.Subset.trans (List.subset_append_left _ _)
        (List.subset_cons_self _ _))
      have asked := nodes_cover known inside (fun n node e wants => mem_typeExprs bases node wants)
        shown apt needs
      exact ⟨_, List.mem_append_left _ (List.mem_append_right _ (mem_placed.mpr ⟨asked, rfl⟩))⟩
    · obtain ⟨i, member, shown⟩ := List.mem_flatMap.mp shown
      have inside : info.Serves c.table i.nodes := serves.mono fun n node =>
        List.mem_cons_of_mem _ (List.mem_append_right _ (List.mem_flatMap.mpr ⟨i, member, node⟩))
      obtain ⟨b, found⟩ := item_covers known inside shown apt needs true (visible && !own.generated.noHeader)
      exact ⟨b, List.mem_append_right _ (List.mem_flatMap.mpr ⟨i, member, found⟩)⟩
  | visible, .abstraction own name target fs, serves, shown, apt, needs
  | visible, .refurbish own target fs, serves, shown, apt, needs => by
    rw [Decl.nodes] at serves
    rw [Decl.shown] at shown
    have inside := serves.mono (List.Subset.trans (List.subset_append_right _ _)
      (List.subset_cons_self _ _))
    obtain ⟨b, found⟩ := extension_covers known inside shown apt needs (visible && !own.generated.noHeader)
    rw [decl]
    exact ⟨b, List.mem_append_right _ found⟩
  | visible, .includes _ _ _ _, serves, shown, apt, needs | visible, .assume _ _ _, serves, shown, apt, needs
  | visible, .attributeDef _ _ _ _, serves, shown, apt, needs => by
    rw [Decl.shown] at shown
    cases shown

theorem decls_cover (known : c.info = some info) : (visible : Bool) → (ds : List Decl) →
    info.Serves c.table (Decl.nodesOf ds) → u ∈ Decl.shownOf info ds → u.Apt c info.symbols →
    e ∈ c.ty u.type → ∃ b, (e, b) ∈ c.decls visible ds
  | visible, d :: ds, serves, shown, apt, needs => by
    rw [Decl.nodesOf] at serves
    rw [Decl.shownOf] at shown
    rw [decls]
    rcases List.mem_append.mp shown with shown | shown
    · obtain ⟨b, found⟩ := decl_covers known visible d (serves.mono (List.subset_append_left _ _))
        shown apt needs
      exact ⟨b, List.mem_append_left _ found⟩
    · obtain ⟨b, found⟩ := decls_cover known visible ds (serves.mono (List.subset_append_right _ _))
        shown apt needs
      exact ⟨b, List.mem_append_right _ found⟩

end

end Include.Context

/-! ### The includes of a unit -/

open Include (Context)

/-- In a written type of an analysis the name asks for what it stands for. -/
def Analysis.Apt (a : Analysis) (table : Table) (name : String) : Prop :=
  (⟨table, some a.info, ""⟩ : Context).Apt a.info.symbols name

instance (a : Analysis) (table : Table) (name : String) : Decidable (a.Apt table name) :=
  inferInstanceAs (Decidable (Context.Apt _ _ _))

/-- The includes of a compiled file have all that its types need whose names ask for what they stand
for. -/
theorem compile_covers_types {table : Table} {o : CompileOptions} {name src : String} {a : Analysis}
    {c : Compiled} (analysis : analyze table name src = .ok a)
    (compiled : compile table o name src = .ok c) {u : Shown} (shown : u ∈ a.shown)
    (apt : ∀ w ∈ u.words, a.Apt table w) {e : IncludeEntry} (needs : e ∈ table.headers u.type)
    (named : e.path ≠ "") : c.unit.includes.Has e := by
  obtain ⟨a', again, compiled⟩ := except_bind_ok compiled
  obtain rfl := Except.ok.inj (again.symm.trans analysis)
  obtain ⟨unit, emitted, compiled⟩ := except_bind_ok compiled
  cases compiled
  obtain ⟨eo, sheets, -, rfl⟩ := File.emit_ok (mapError_ok emitted)
  let ctx : Context := ⟨table, some a'.info, eo.headerExt⟩
  have apt : u.Apt ctx a'.info.symbols := fun w word =>
    ⟨(apt w word).own, fun x listed goes written t type =>
      have covers := (apt w word).symbols x listed goes written t type
      ⟨covers.alone, covers.base⟩⟩
  have serves : a'.info.Serves table (Decl.nodesOf a'.file.decls) :=
    (analyze_serves analysis).mono (List.subset_cons_self _ _)
  have needs : e ∈ ctx.ty u.type := by rwa [Context.ty_eq_headers]
  obtain ⟨b, asked⟩ := Context.decls_cover (c := ctx) rfl true a'.file.decls serves shown apt needs
  exact IncludeSet.has_addAll.mpr (.inr ⟨named, b, asked⟩)

def stringText : String := "abstract A becomes std.string { }
fn f(copy x: (int, A)) { }
"

/-- A tuple with a string in it that is named through a binding. -/
theorem compile_covers_types_of_binding :
    ∃ a c, analyze Table.default "main.tasty" stringText = .ok a ∧
      compile Table.default {} "main.tasty" stringText = .ok c ∧
      ∃ u ∈ a.shown, u.words = ["int", "A"] ∧ (∀ w ∈ u.words, a.Apt Table.default w) ∧
        ⟨"string", false⟩ ∈ Table.default.headers u.type ∧ c.unit.includes.Has ⟨"string", false⟩ := by
  have found : (compiled? Table.default {} "main.tasty" stringText).any (fun r =>
      r.1.shown.any fun u => u.words = ["int", "A"] && decide (∀ w ∈ u.words, r.1.Apt Table.default w) &&
        decide (⟨"string", false⟩ ∈ Table.default.headers u.type)) = true := by
    rw [compiled?, compile, analyze, stringText, File.read_ofList]
    decide +kernel
  obtain ⟨⟨a, c⟩, steps, found⟩ := (Option.any_eq_true _ _).mp found
  obtain ⟨analysis, compiled⟩ := compiled?_some steps
  simp only [List.any_eq_true, Bool.and_eq_true, decide_eq_true_eq] at found
  obtain ⟨u, shown, ⟨words, apt⟩, needs⟩ := found
  exact ⟨a, c, analysis, compiled, u, shown, words, apt, needs,
    compile_covers_types analysis compiled shown apt needs (by decide)⟩

def dottedText : String := "namespace N { abstract A becomes std.string { } }
fn f(copy x: N.A) { }
"

/-- A parameter that is a string, and no include of what declares strings: its type is written with the
dotted name of a binding. -/
theorem compile_lacks_scoped_binding :
    ∃ a c, analyze Table.default "main.tasty" dottedText = .ok a ∧
      compile Table.default {} "main.tasty" dottedText = .ok c ∧
      ∃ u ∈ a.shown, u.words = ["N.A"] ∧ u.type.cpp = "std::string" ∧
        ⟨"string", false⟩ ∈ Table.default.headers u.type ∧ ¬ c.unit.includes.Has ⟨"string", false⟩ := by
  have found : (compiled? Table.default {} "main.tasty" dottedText).any (fun r =>
      r.2.unit.includes.header.isEmpty && r.2.unit.includes.source.isEmpty &&
        r.1.shown.any fun u => u.words = ["N.A"] && u.type.cpp = "std::string" &&
          decide (⟨"string", false⟩ ∈ Table.default.headers u.type)) = true := by
    rw [compiled?, compile, analyze, dottedText, File.read_ofList]
    decide +kernel
  obtain ⟨⟨a, c⟩, steps, found⟩ := (Option.any_eq_true _ _).mp found
  obtain ⟨analysis, compiled⟩ := compiled?_some steps
  simp only [List.any_eq_true, Bool.and_eq_true, decide_eq_true_eq, List.isEmpty_iff] at found
  obtain ⟨⟨header, source⟩, u, shown, ⟨words, spelled⟩, needs⟩ := found
  refine ⟨a, c, analysis, compiled, u, shown, words, spelled, needs, ?_⟩
  rw [IncludeSet.Has, header, source]
  simp

end TastyLang
