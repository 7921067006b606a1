import TastyLang.Proofs.Resolution.Findings
import TastyLang.Proofs.Resolution.Hoisting

/-!
# What the names in written types stand for

A written type is read once, in the second pass or in the third, and a name in it stands for a primitive,
for the type of a symbol that goes by the name, or for nothing known. Symbols keep their types, so this can
be said of what resolution leaves (`Passed.type_stands`).
-/

namespace TastyLang

open Resolution

/-- A symbol goes by its name, and by dotted names that end in it. -/
def Symbol.Goes (x : Symbol) (name : String) : Prop :=
  x.name = name ∨ (Text.cut '.' name).getLast? = some x.name

instance (x : Symbol) (name : String) : Decidable (x.Goes name) := inferInstanceAs (Decidable (_ ∨ _))

/-- A symbol that stands for its type where it is named in a written type. -/
def SymbolKind.isWritten : SymbolKind → Bool
  | .cls | .enum | .abstraction => true
  | _ => false

/-- What a name in a written type can stand for, bare. -/
inductive SymbolTable.Gives (table : Table) (t : SymbolTable) (name : String) : Ty → Prop
  | primitive {p : Primitive} : table.primitive? name = some p → t.Gives table name (.ofPrimitive p)
  | unknown : table.primitive? name = none → t.Gives table name (.unknown name)
  | symbol {id : SymbolId} {u : Ty} : table.primitive? name = none → (t.symbol id).Goes name →
    (t.symbol id).kind.isWritten = true → (t.symbol id).type = some u → t.Gives table name u.bare

/-- The names of a written type stand for what makes it stand for a type. -/
def Info.Reads (table : Table) (i : Info) (te : TypeExpr) : Prop :=
  ∃ names : String → Ty, (i.typeOfExpr te).bare = te.meaning names ∧
    ∀ w ∈ te.words, i.symbols.Gives table w (names w)

theorem Info.typeOfExpr_of {i : Info} {te : TypeExpr} {t : Ty} (found : i.typeExprs[te.span]? = some t) :
    i.typeOfExpr te = t := by
  rw [Info.typeOfExpr, Std.TreeMap.getD_eq_getD_getElem?, found]
  rfl

namespace Resolution

variable {table : Table} {file : File} {name src : String} {s s' s₁ s₂ : State} {sc : ScopeId}

/-! ### Names in a state -/

theorem throughMembers?_name {t : SymbolTable} {id id' : SymbolId} {first : String} {parts : List String}
    (named : (t.symbol id).name = first) (found : throughMembers? t id parts = some id') :
    (first :: parts).getLast? = some (t.symbol id').name := by
  induction parts generalizing id first with
  | nil =>
    cases found
    rw [List.getLast?_singleton, named]
  | cons part parts ih =>
    rw [throughMembers?] at found
    split at found
    · cases found
    · split at found
      · next next here =>
        rw [List.getLast?_cons_cons]
        exact ih (SymbolTable.lookupLocal?_mem here).2 found
      · cases found

theorem lookupDotted?_goes {id : SymbolId} (formed : s.Formed file)
    (found : s.lookupDotted? sc name = some id) : (s.info.symbols.symbol id).Goes name := by
  unfold State.lookupDotted? at found
  split at found
  · next assumed =>
    cases found
    obtain ⟨before, after, same, -⟩ := List.lookup_eq_some_iff.mp assumed
    exact .inl (formed.assumed (name, id) (by simp [same])).2.2.2
  · split at found
    · cases found
    · next first parts cut =>
      obtain ⟨head, here, rest⟩ := Option.bind_eq_some_iff.mp found
      obtain ⟨scope, -, here⟩ := List.exists_of_findSome?_eq_some here
      refine .inr ?_
      rw [cut]
      exact throughMembers?_name (SymbolTable.lookupLocal?_mem here).2 rest

theorem nameType_gives (formed : s.Formed file) (table : Table) (sc : ScopeId) (name : String) :
    s.info.symbols.Gives table name (s.nameType table sc name).bare := by
  unfold State.nameType
  split
  · next p prim =>
    rw [Ty.bare_ofPrimitive]
    exact .primitive prim
  · next plain =>
    cases found : s.lookupDotted? sc name with
    | none => exact .unknown plain
    | some id =>
      have goes := lookupDotted?_goes formed found
      dsimp only [Option.map_some]
      split
      · next t kind type => exact .symbol plain goes (by rw [kind]; rfl) type
      · next t kind type => exact .symbol plain goes (by rw [kind]; rfl) type
      · next t kind type => exact .symbol plain goes (by rw [kind]; rfl) type
      · exact .unknown plain

/-! ### The third pass -/

theorem SymbolKind.known_of_written {t : SymbolTable} {i : SymbolId}
    (written : (t.symbol i).kind.isWritten = true) : i < t.symbols.size := by
  by_contra out
  rw [SymbolTable.symbol_of_le (Nat.le_of_not_lt out)] at written
  cases written

/-- The kind, the name and the type of a symbol stay. -/
structure StaysAt (s s' : State) (i : SymbolId) : Prop where
  kind : (s'.info.symbols.symbol i).kind = (s.info.symbols.symbol i).kind
  name : (s'.info.symbols.symbol i).name = (s.info.symbols.symbol i).name
  type : (s'.info.symbols.symbol i).type = (s.info.symbols.symbol i).type

theorem StaysAt.of_same {i : SymbolId}
    (same : s'.info.symbols.symbol i = s.info.symbols.symbol i) : StaysAt s s' i := by
  refine ⟨?_, ?_, ?_⟩ <;> rw [same]

theorem StaysAt.trans {s'' : State} {i : SymbolId} (h : StaysAt s s' i) (h' : StaysAt s' s'' i) :
    StaysAt s s'' i :=
  ⟨h'.kind.trans h.kind, h'.name.trans h.name, h'.type.trans h.type⟩

theorem resolving_stays (run : s.Run (resolving table file).may s') {i : SymbolId}
    (written : (s.info.symbols.symbol i).kind.isWritten = true) : StaysAt s s' i := by
  refine run.keeps (P := fun s' => StaysAt s s' i) (fun s₁ c allowed before => before.trans ?_) (.of_same rfl)
  have written : (s₁.info.symbols.symbol i).kind.isWritten = true := by rw [before.kind, written]
  have resolves := allowed.2
  cases c with
  | alloc x =>
    refine .of_same ((s₁.info.symbols.symbol_alloc x i).trans (if_neg ?_))
    exact Nat.ne_of_lt (SymbolKind.known_of_written written)
  | declare sc id =>
    have same : ((Change.declare sc id).apply s₁).info.symbols.symbol i = _ :=
      s₁.info.symbols.symbol_entered sc id i
    refine ⟨?_, ?_, ?_⟩ <;> (rw [same]; split <;> rfl)
  | type id t =>
    refine .of_same ((s₁.info.symbols.symbol_modifySymbol id i _).trans (if_neg ?_))
    rintro ⟨rfl, -⟩
    rw [show (s₁.info.symbols.symbol i).kind = .var from resolves] at written
    cases written
  | capabilities _ | refurbish _ _ _ | members _ _ | newClass _ | addBase _ _ | className _ _ | classAt _ _ _
  | extension _ | extended _ | func _ _ | assume _ _ | param _ _ => exact absurd resolves not_false
  | _ => exact .of_same rfl

theorem resolving_gives {t : Ty} (run : s.Run (resolving table file).may s')
    (gives : s.info.symbols.Gives table name t) : s'.info.symbols.Gives table name t := by
  cases gives with
  | primitive prim => exact .primitive prim
  | unknown plain => exact .unknown plain
  | symbol plain goes written type =>
    have stays := resolving_stays run written
    refine .symbol plain ?_ (by rw [stays.kind, written]) (stays.type.trans type)
    rwa [Symbol.Goes, stays.name]

/-! ### Types of the third pass -/

theorem Passed.late_type (read : File.read table name src = .ok file)
    (passed : Passed table file file.decls s₁ s₂ s) {te : TypeExpr}
    (visited : s₂.Visited table file s (.type te)) : s.info.Reads table te := by
  obtain ⟨p, t, s₃, s₄, rfl, before, ran, after, found⟩ := visited
  cases (typeExpr_run p te s₃).symm.trans ran
  have formed : s₃.Formed file :=
    before.run.formed (resolving p.table file).legal passed.formed
  refine ⟨_, by rw [Info.typeOfExpr_of found, TypeExpr.bare_meaning], fun w _ => ?_⟩
  exact resolving_gives after.run (nameType_gives formed p.table p.scope w)

end Resolution

/-! ### Types of variables -/

/-- The types that are written for variables are nodes too. -/
def TypesBeside (ns : List Node) : Prop := ∀ d te, .var d ∈ ns → d.type = some te → .type te ∈ ns

namespace TypesBeside

variable {ns ms : List Node}

theorem nil : TypesBeside [] := fun _ _ member => nomatch member

theorem cons {n : Node} (plain : ∀ d, n ≠ .var d) (h : TypesBeside ns) : TypesBeside (n :: ns) :=
  fun d te member written => List.mem_cons_of_mem _
    (h d te ((List.mem_cons.mp member).resolve_left (plain d).symm) written)

theorem append (h : TypesBeside ns) (h' : TypesBeside ms) : TypesBeside (ns ++ ms) := by
  intro d te member written
  exact List.mem_append.mpr ((List.mem_append.mp member).imp (h d te · written) (h' d te · written))

theorem flatMap {α : Type} {xs : List α} {nodes : α → List Node} (each : ∀ x ∈ xs, TypesBeside (nodes x)) :
    TypesBeside (xs.flatMap nodes) := by
  intro d te member written
  obtain ⟨x, listed, member⟩ := List.mem_flatMap.mp member
  exact List.mem_flatMap.mpr ⟨x, listed, each x listed d te member written⟩

theorem part {α : Type} {nodes : α → List Node} (each : ∀ x, TypesBeside (nodes x)) (x : Option α) :
    TypesBeside (nodesIn nodes x) := by
  cases x with
  | none => exact nil
  | some x => exact each x

end TypesBeside

theorem TypeExpr.types_beside (t : TypeExpr) : TypesBeside t.nodes := by
  intro d te member
  obtain ⟨u, same⟩ := Resolution.TypeExpr.nodes_types t member
  cases same

mutual

theorem Expr.types_beside : (x : Expr) → TypesBeside x.nodes
  | .literal _ _ _ | .ident _ _ | .self _ => .cons (fun _ => nofun) .nil
  | .binary _ _ l r | .index _ l r | .range _ l r =>
    .cons (fun _ => nofun) (l.types_beside.append r.types_beside)
  | .unary _ _ x _ | .member _ x _ _ | .delete _ x | .tupleIndex _ x _ | .paren _ x =>
    .cons (fun _ => nofun) x.types_beside
  | .call _ fn args => .cons (fun _ => nofun) (fn.types_beside.append (Expr.types_besideOf args))
  | .new _ t args => .cons (fun _ => nofun) (t.types_beside.append (Expr.types_besideOf args))
  | .cast _ x _ t => .cons (fun _ => nofun) (x.types_beside.append t.types_beside)
  | .tuple _ elems => .cons (fun _ => nofun) (Expr.types_besideOf elems)
  | .ternary _ cond yes no =>
    .cons (fun _ => nofun) ((cond.types_beside.append yes.types_beside).append no.types_beside)

theorem Expr.types_besideOf : (xs : List Expr) → TypesBeside (Expr.nodesOf xs)
  | [] => .nil
  | x :: xs => (Expr.types_beside x).append (Expr.types_besideOf xs)

end

theorem VarDecl.types_beside (d : VarDecl) : TypesBeside d.nodes := by
  intro d' te member written
  rcases List.mem_cons.mp member with same | member
  · obtain rfl := Node.var.inj same
    refine List.mem_cons_of_mem _ (List.mem_append_left _ ?_)
    rw [written]
    exact te.type_mem
  · have inner := (TypesBeside.part TypeExpr.types_beside d.type).append (.part Expr.types_beside d.value)
    exact List.mem_cons_of_mem _ (inner d' te member written)

mutual

theorem Stmt.types_beside : (s : Stmt) → TypesBeside s.nodes
  | .block b => by
    rw [Stmt.nodes]
    exact b.types_beside
  | .expr _ x => .cons (fun _ => nofun) x.types_beside
  | .decl _ d => .cons (fun _ => nofun) d.types_beside
  | .branch _ _ cond yes none => by
    rw [Stmt.nodes]
    exact .cons (fun _ => nofun) ((cond.types_beside.append yes.types_beside).append .nil)
  | .branch _ _ cond yes (some no) => by
    rw [Stmt.nodes]
    exact .cons (fun _ => nofun) ((cond.types_beside.append yes.types_beside).append no.types_beside)
  | .loop _ _ cond body =>
    .cons (fun _ => nofun) ((TypesBeside.part Expr.types_beside cond).append body.types_beside)
  | .count _ _ _ low high step body =>
    .cons (fun _ => nofun) (((low.types_beside.append high.types_beside).append
      (.part Expr.types_beside step)).append body.types_beside)
  | .each _ _ _ items body => .cons (fun _ => nofun) (items.types_beside.append body.types_beside)
  | .ret _ value _ _ _ => .cons (fun _ => nofun) (.part Expr.types_beside value)
  | .brk _ _ | .cont _ _ | .inject _ _ => .cons (fun _ => nofun) .nil

theorem Block.types_beside : (b : Block) → TypesBeside b.nodes
  | .mk _ ss _ => .cons (fun _ => nofun) (Stmt.types_besideOf ss)

theorem Stmt.types_besideOf : (ss : List Stmt) → TypesBeside (Stmt.nodesOf ss)
  | [] => .nil
  | s :: ss => s.types_beside.append (Stmt.types_besideOf ss)

end

theorem FuncDecl.types_beside (f : FuncDecl) : TypesBeside f.nodes :=
  .cons (fun _ => nofun) (((TypesBeside.flatMap fun q _ =>
    q.type.types_beside.append (.part Expr.types_beside q.value)).append
    (.part TypeExpr.types_beside f.result)).append (.part Block.types_beside f.body))

theorem Item.types_beside : (i : Item) → TypesBeside i.nodes
  | .var d => d.types_beside
  | .func f => f.types_beside
  | .enum _ => .cons (fun _ => nofun) (.flatMap fun m _ => .part Expr.types_beside m.value)
  | .inject _ _ => .cons (fun _ => nofun) .nil

mutual

theorem Decl.types_beside : (d : Decl) → TypesBeside d.nodes
  | .item i => by
    rw [Decl.nodes]
    exact i.types_beside
  | .scope _ _ ds => .cons (fun _ => nofun) (Decl.types_besideOf ds)
  | .cls _ _ bases items => by
    rw [Decl.nodes, TypeExpr.nodesOf_eq]
    exact .cons (fun _ => nofun) ((TypesBeside.flatMap fun t _ => t.types_beside).append
      (.flatMap fun i _ => i.types_beside))
  | .abstraction _ _ target fs | .refurbish _ target fs =>
    .cons (fun _ => nofun) (target.types_beside.append (.flatMap fun f _ => f.types_beside))
  | .includes _ _ _ _ | .assume _ _ _ | .attributeDef _ _ _ _ => .cons (fun _ => nofun) .nil

theorem Decl.types_besideOf : (ds : List Decl) → TypesBeside (Decl.nodesOf ds)
  | [] => .nil
  | d :: ds => d.types_beside.append (Decl.types_besideOf ds)

end

theorem File.types_beside (file : File) : TypesBeside file.nodes :=
  .cons (fun _ => nofun) (Decl.types_besideOf file.decls)

/-! ### What the second pass reads -/

mutual

theorem TypeExpr.notes_parts {names : String → Ty} {n : Span × Ty} : (t : TypeExpr) → n ∈ t.notes names →
    ∃ te, .type te ∈ t.nodes ∧ n = (te.span, te.meaning names)
  | .tuple span elems stars, noted => by
    rw [notes] at noted
    rcases List.mem_append.mp noted with inner | own
    · obtain ⟨te, part, same⟩ := TypeExpr.notesOf_parts elems inner
      exact ⟨te, List.mem_cons_of_mem _ part, same⟩
    · exact ⟨_, List.mem_cons_self, List.mem_singleton.mp own⟩
  | .func span params none stars, noted => by
    rw [notes, List.append_nil] at noted
    rcases List.mem_append.mp noted with inner | own
    · obtain ⟨te, part, same⟩ := TypeExpr.notesOf_parts params inner
      exact ⟨te, List.mem_cons_of_mem _ (List.mem_append_left _ part), same⟩
    · exact ⟨_, List.mem_cons_self, List.mem_singleton.mp own⟩
  | .func span params (some r) stars, noted => by
    rw [notes] at noted
    rcases List.mem_append.mp noted with inner | own
    · rcases List.mem_append.mp inner with inner | inner
      · obtain ⟨te, part, same⟩ := TypeExpr.notesOf_parts params inner
        exact ⟨te, List.mem_cons_of_mem _ (List.mem_append_left _ part), same⟩
      · obtain ⟨te, part, same⟩ := TypeExpr.notes_parts r inner
        exact ⟨te, List.mem_cons_of_mem _ (List.mem_append_right _ part), same⟩
    · exact ⟨_, List.mem_cons_self, List.mem_singleton.mp own⟩
  | .named span name args stars, noted => by
    rw [notes] at noted
    rcases List.mem_append.mp noted with inner | own
    · obtain ⟨te, part, same⟩ := TypeExpr.notesOf_parts args inner
      exact ⟨te, List.mem_cons_of_mem _ part, same⟩
    · exact ⟨_, List.mem_cons_self, List.mem_singleton.mp own⟩

theorem TypeExpr.notesOf_parts {names : String → Ty} {n : Span × Ty} : (ts : List TypeExpr) →
    n ∈ notesOf names ts → ∃ te, .type te ∈ nodesOf ts ∧ n = (te.span, te.meaning names)
  | t :: ts, noted => by
    rw [notesOf] at noted
    rcases List.mem_append.mp noted with inner | inner
    · obtain ⟨te, part, same⟩ := TypeExpr.notes_parts t inner
      exact ⟨te, List.mem_append_left _ part, same⟩
    · obtain ⟨te, part, same⟩ := TypeExpr.notesOf_parts ts inner
      exact ⟨te, List.mem_append_right _ part, same⟩

end

/-- The parts of what is read are nodes of a zone. -/
def Reading.Within (zone : List Node) (r : Reading) : Prop := ∀ n ∈ r.type.nodes, n ∈ zone

theorem FuncDecl.readings_early {π : Path} {f : FuncDecl} : ∀ r ∈ f.readings π, r.Within f.early := by
  intro r listed n part
  rcases List.mem_append.mp listed with listed | listed
  · obtain ⟨q, param, rfl⟩ := List.mem_map.mp listed
    exact List.mem_append_left _ (List.mem_flatMap.mpr ⟨q, param, part⟩)
  · obtain ⟨t, result, rfl⟩ := List.mem_map.mp listed
    rw [FuncDecl.early, Option.mem_toList.mp result]
    exact List.mem_append_right _ part

theorem Item.readings_early {π : Path} {i : Item} : ∀ r ∈ i.readings π, r.Within i.early := by
  cases i with
  | var d =>
    intro r listed n part
    obtain ⟨t, written, rfl⟩ := List.mem_map.mp listed
    rw [Item.early, Option.mem_toList.mp written]
    exact List.mem_cons_of_mem _ part
  | func f => exact f.readings_early
  | enum _ | inject _ _ => exact List.forall_mem_nil _

theorem readings_within {α : Type} {xs : List α} {read : α → List Reading} {early : α → List Node}
    (each : ∀ x ∈ xs, ∀ r ∈ read x, r.Within (early x)) :
    ∀ r ∈ xs.flatMap read, r.Within (xs.flatMap early) := by
  intro r listed n part
  obtain ⟨x, member, listed⟩ := List.mem_flatMap.mp listed
  exact List.mem_flatMap.mpr ⟨x, member, each x member r listed n part⟩

mutual

theorem Decl.readings_early {π : Path} {r : Reading} : (d : Decl) → r ∈ d.readings π → r.Within d.early
  | .item i, listed => i.readings_early r listed
  | .scope _ name ds, listed => Decl.readingsOf_early ds listed
  | .cls _ name bases items, listed => by
    intro n part
    rw [Decl.readings] at listed
    rcases List.mem_append.mp listed with listed | listed
    · obtain ⟨t, base, rfl⟩ := List.mem_map.mp listed
      exact List.mem_append_left _ (TypeExpr.mem_nodesOf.mpr ⟨t, base, part⟩)
    · exact List.mem_append_right _ (readings_within (fun i _ => i.readings_early) r listed n part)
  | .abstraction _ name target fs, listed => by
    intro n part
    rw [Decl.readings] at listed
    rcases List.mem_cons.mp listed with rfl | listed
    · exact List.mem_append_left _ part
    · exact List.mem_append_right _ (readings_within (fun f _ => f.readings_early) r listed n part)
  | .refurbish _ target fs, listed => by
    intro n part
    rw [Decl.readings] at listed
    rcases List.mem_cons.mp listed with rfl | listed
    · exact List.mem_append_left _ part
    · exact List.mem_append_right _ (readings_within (fun f _ => f.readings_early) r listed n part)
  | .includes _ _ _ _, listed | .assume _ _ _, listed | .attributeDef _ _ _ _, listed => by
    rw [Decl.readings] at listed
    cases listed

theorem Decl.readingsOf_early {π : Path} {r : Reading} : (ds : List Decl) → r ∈ Decl.readingsOf π ds →
    r.Within (Decl.earlyOf ds)
  | d :: ds, listed => by
    intro n part
    rw [Decl.readingsOf] at listed
    rcases List.mem_append.mp listed with listed | listed
    · exact List.mem_append_left _ (Decl.readings_early d listed n part)
    · exact List.mem_append_right _ (Decl.readingsOf_early ds listed n part)

end

namespace Chart

variable {c : Chart}

theorem through?_listed {l l' : Landmark} {parts : List String} (listed : l ∈ c.landmarks)
    (found : c.through? l parts = some l') :
    l' ∈ c.landmarks ∧ (l.name :: parts).getLast? = some l'.name := by
  induction parts generalizing l with
  | nil =>
    cases found
    exact ⟨listed, rfl⟩
  | cons part parts ih =>
    obtain ⟨next, here, rest⟩ := Option.bind_eq_some_iff.mp found
    have key := List.find?_some here
    simp only [Bool.and_eq_true, decide_eq_true_eq] at key
    obtain ⟨listed, last⟩ := ih (List.mem_of_find?_eq_some here) rest
    rw [key.2] at last
    exact ⟨listed, (List.getLast?_cons_cons ..).trans last⟩

theorem lookup?_listed {π : Path} {name : String} {l : Landmark} (found : c.lookup? π name = some l) :
    (∃ kind, c.assumed.reverse.lookup name = some kind ∧ l = ⟨[], name, kind.meant name⟩) ∨
      l ∈ c.landmarks ∧ (Text.cut '.' name).getLast? = some l.name := by
  unfold lookup? at found
  split at found
  · next kind assumed => exact .inl ⟨kind, assumed, (Option.some.inj found).symm⟩
  · split at found
    · cases found
    · next first parts cut =>
      obtain ⟨head, here, rest⟩ := Option.bind_eq_some_iff.mp found
      obtain ⟨π', -, here⟩ := List.exists_of_findSome?_eq_some here
      have key := List.find?_some here
      simp only [Bool.and_eq_true, decide_eq_true_eq] at key
      obtain ⟨listed, last⟩ := through?_listed (List.mem_of_find?_eq_some here) rest
      rw [cut, ← key.2]
      exact .inr ⟨listed, last⟩

end Chart

/-! ### What signatures name -/

namespace Chart

variable {c : Chart} {table : Table}

theorem lookup_readAll_append {key : BindingKey} {t : Ty} {before rest : List Reading}
    (keys : ∀ x ∈ before, ∀ y ∈ rest, x.key? = some key → y.key? ≠ some key)
    (bound : (c.readAll table [] before).lookup key = some t) :
    (c.readAll table [] (before ++ rest)).lookup key = some t := by
  have read : ∃ x ∈ before, x.key? = some key := by
    by_contra not
    rw [lookup_readAll_of_not [] fun x member own => not ⟨x, member, own⟩] at bound
    cases bound
  obtain ⟨x, member, own⟩ := read
  rw [readAll, List.foldl_append, ← readAll, ← readAll,
    lookup_readAll_of_not _ fun y there => keys x member y there own, bound]

end Chart

namespace Resolution

variable {table : Table} {file : File} {name src : String} {s s₁ s₂ : State} {c : Chart}

theorem State.Known.landmark {seen : Bindings} (formed : s.Formed file) (known : s.Known c seen)
    {π : Path} {name : String} {l : Landmark} (found : c.lookup? π name = some l) :
    ∃ id, (s.info.symbols.symbol id).Goes name ∧ l.meant.Fits (s.info.symbols.symbol id) ∧
      ((s.info.symbols.symbol id).kind = .abstraction →
        (s.info.symbols.symbol id).type.map Ty.bare = seen.lookup (l.path, l.name)) := by
  rcases Chart.lookup?_listed found with ⟨kind, assumed, rfl⟩ | ⟨listed, last⟩
  · have paired : Paired _ (s.assumed.lookup name) (c.assumed.reverse.lookup name) :=
      Paired.lookup (r := fun name id kind => (AssumeKind.meant name kind).Fits
        (s.info.symbols.symbol id))
        (known.charted.assumed.imp fun x a h => ⟨h.1, h.1 ▸ h.2.2⟩) name
    rw [assumed] at paired
    generalize here : s.assumed.lookup name = id at paired
    obtain ⟨fits⟩ := paired
    next id =>
    obtain ⟨before, after, same, -⟩ := List.lookup_eq_some_iff.mp here
    refine ⟨id, .inl (formed.assumed (name, id) (by simp [same])).2.2.2, fits, fun abstraction => ?_⟩
    cases kind <;> simp [AssumeKind.meant, Meant.Fits, abstraction] at fits
  · obtain ⟨sc, id, here, local'⟩ := known.charted.table.found l listed
    have own := (SymbolTable.lookupLocal?_mem local').2
    exact ⟨id, .inr (by rw [last, own]), known.charted.table.fits listed here local',
      known.bound here local'⟩

theorem State.Known.gives {seen seen' : Bindings} (formed : s.Formed file) (known : s.Known c seen')
    (grown : ∀ key t, seen.lookup key = some t → seen'.lookup key = some t) (π : Path) (name : String) :
    s.info.symbols.Gives table name (c.nameType table seen π name) := by
  unfold Chart.nameType Chart.binding? Chart.plainType
  cases plain : table.primitive? name with
  | some p => exact .primitive plain
  | none =>
    dsimp only
    cases found : c.lookup? π name with
    | none => exact .unknown plain
    | some l =>
      obtain ⟨id, goes, fits, bound⟩ := known.landmark formed found
      dsimp only
      cases meant : l.meant with
      | other => exact .unknown plain
      | type t =>
        rw [meant] at fits
        obtain ⟨kind, u, type, rfl⟩ := fits
        refine .symbol plain goes ?_ type
        rcases kind with kind | kind <;> (rw [kind]; rfl)
      | binding target =>
        rw [meant] at fits
        dsimp only [Option.bind_some]
        cases here : seen.lookup (l.path, l.name) with
        | none => exact .unknown plain
        | some t =>
          obtain ⟨u, type, rfl⟩ := Option.map_eq_some_iff.mp ((bound fits.1).trans (grown _ _ here))
          exact .symbol plain goes (by rw [fits.1]; rfl) type

theorem Passed.early_type (read : File.read table name src = .ok file)
    (passed : Passed table file file.decls s₁ s₂ s) {te : TypeExpr} (early : .type te ∈ file.early) :
    s.info.Reads table te := by
  have reads := signatures_reads (p := outermost table) (File.chart_apart read) passed.known .root
    file.decls (fun _ h => h) (fun _ h => h) passed.signed
  have late : te.span ∉ typeSpans file.late := fun late =>
    (List.nodup_append.mp (File.zones read)).2.2 _ (mem_typeSpans.mpr ⟨te, early, rfl⟩) _ late rfl
  have here : te.span ∈ readSpans (Decl.readingsOf [] file.decls) := by
    rw [Decl.readSpans_readingsOf]
    exact mem_typeSpans.mpr ⟨te, early, rfl⟩
  obtain ⟨t, found, noted⟩ := passed.typed (File.chart_apart read) here late
  obtain ⟨before, r, after, split, noted⟩ := Chart.mem_notes.mp noted
  obtain ⟨te', part, same⟩ := TypeExpr.notes_parts r.type noted
  obtain ⟨own, bare⟩ := Prod.mk.inj same
  have within := Decl.readingsOf_early file.decls (by rw [split]; simp) _ part
  have inside : ∀ n ∈ file.early, n ∈ file.nodes := fun n member => File.early_subset member
  cases marksOf_inj (File.read_marks read) (inside _ early) (inside _ within) rfl
    (by rw [Node.place?, own]; rfl)
  have order := File.reordered read (List.Perm.refl _) passed fun _ => rfl
  have grown : ∀ key t, (file.chart.readAll table [] before).lookup key = some t →
      (file.chart.readAll table [] (Decl.readingsOf [] file.decls)).lookup key = some t := by
    intro key t bound
    rw [split]
    refine Chart.lookup_readAll_append (fun x here y there own own' => ?_) bound
    have once := order.once
    rw [split, List.map_append, List.nodup_append] at once
    obtain rfl := order.keys x (by rw [split]; exact List.mem_append_left _ here) y
      (by rw [split]; exact List.mem_append_right _ there) key own own'
    exact once.2.2 _ (List.mem_map_of_mem here) _ (List.mem_map_of_mem there) rfl
  refine ⟨_, by rw [Info.typeOfExpr_of found, bare], fun w _ => resolving_gives passed.third ?_⟩
  exact reads.known.gives passed.formed grown r.path w

theorem Passed.type_stands (read : File.read table name src = .ok file)
    (passed : Passed table file file.decls s₁ s₂ s) {te : TypeExpr} (node : .type te ∈ file.nodes) :
    s.info.Reads table te := by
  have ended := passed.ended
  have inside : .type te ∈ Decl.nodesOf file.decls := (List.mem_cons.mp node).resolve_left nofun
  rcases Decl.nodesOf_read rfl file.decls inside with early | value | ⟨f, listed, same | held⟩
  · exact passed.early_type read early
  · exact passed.late_type read (ended.values _ value)
  · cases same
  · exact passed.late_type read (ended.late f listed _ held)

theorem Passed.var_type (read : File.read table name src = .ok file)
    (passed : Passed table file file.decls s₁ s₂ s) {d : VarDecl} {te : TypeExpr}
    (node : .var d ∈ file.nodes) (written : d.type = some te) :
    s.info.varType d = d.storage.typeOf (s.info.typeOfExpr te) := by
  obtain ⟨id, noted, carries⟩ := passed.carries read node
  obtain ⟨t, found, type⟩ := carries.written te written
  rw [Info.varType, noted, Info.typeOfExpr_of found, Info.symbolType, Option.bind_some, type]
  rfl

end Resolution

end TastyLang
