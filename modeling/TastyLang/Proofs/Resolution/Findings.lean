import Mathlib.Data.List.Induction
import TastyLang.Proofs.Resolution.Completeness

/-!
# What resolution finds out

Before the third pass nothing is said about an expression, and the tables of capabilities and of
refurbished types are complete (`Prepared.begun`). The third pass leaves the tables alone and visits every
expression (`Passed.visited_expr`), so each variable has the type that is written for it or the one that its
value gives it (`Passed.carries`).
-/

namespace TastyLang

def File.bound (file : File) : List (String × FuncDecl) := Decl.boundOf file.decls

def File.refurbs (file : File) : List (TypeExpr × FuncDecl) := Decl.refurbsOf file.decls

/-! ### Nodes of signatures -/

theorem Item.early_plain {n : Node} {i : Item} (member : n ∈ i.early) :
    (∃ t, n = .type t) ∨ ∃ d, n = .var d := by
  cases i with
  | var d =>
    cases written : d.type with
    | none => simp [Item.early, written, nodesIn] at member
    | some te =>
      rw [Item.early, written] at member
      rcases List.mem_cons.mp member with rfl | member
      · exact .inr ⟨d, rfl⟩
      · exact .inl (Resolution.TypeExpr.nodes_types te member)
  | func f => exact .inl (Resolution.FuncDecl.early_types member)
  | enum d => cases member
  | inject info text => cases member

mutual

theorem Decl.early_plain {n : Node} : (d : Decl) → n ∈ d.early → (∃ t, n = .type t) ∨ ∃ v, n = .var v
  | .item _, member => by
    rw [Decl.early] at member
    exact Item.early_plain member
  | .scope _ _ ds, member => by
    rw [Decl.early] at member
    exact Decl.earlyOf_plain ds member
  | .cls _ _ bases items, member => by
    rw [Decl.early] at member
    rcases List.mem_append.mp member with member | member
    · exact .inl (Resolution.TypeExpr.nodesOf_types bases member)
    · obtain ⟨i, -, member⟩ := List.mem_flatMap.mp member
      exact Item.early_plain member
  | .abstraction _ _ target fs, member | .refurbish _ target fs, member => by
    rw [Decl.early] at member
    rcases List.mem_append.mp member with member | member
    · exact .inl (Resolution.TypeExpr.nodes_types target member)
    · obtain ⟨f, -, member⟩ := List.mem_flatMap.mp member
      exact .inl (Resolution.FuncDecl.early_types member)
  | .includes _ _ _ _, member | .assume _ _ _, member | .attributeDef _ _ _ _, member => by
    rw [Decl.early] at member
    cases member

theorem Decl.earlyOf_plain {n : Node} : (ds : List Decl) → n ∈ Decl.earlyOf ds →
    (∃ t, n = .type t) ∨ ∃ v, n = .var v
  | [], member => by
    rw [Decl.earlyOf] at member
    cases member
  | d :: ds, member => by
    rw [Decl.earlyOf] at member
    rcases List.mem_append.mp member with member | member
    · exact Decl.early_plain d member
    · exact Decl.earlyOf_plain ds member

end

namespace Resolution

variable {table : Table} {file : File} {name src : String} {s s' s₁ s₂ : State}

/-! ### Before the third pass -/

structure State.Begun (file : File) (s : State) : Prop where
  silent : ∀ k, s.entry (.expr k) = {}
  granted : s.Grants (Decl.bindingsOf file.decls) file.bound
  refurbished : List.Forall₂ s.Refurbishes s.refurbished file.refurbs.reverse
  targets : ∀ r ∈ file.refurbs, r.1.span ∈ typeSpans file.early
  typed : ∀ d, .var d ∈ file.early → s.Typed d
  written : ∀ d te, .var d ∈ file.early → d.type = some te → te.span ∈ typeSpans file.early

theorem blankTables_grant (names : List String) (binding : String) :
    if binding ∈ names then ∃ c, (blankTables names).lookup binding = some c ∧
      Capabilities.Lists c binding [] else (blankTables names).lookup binding = none := by
  have blank : (blankTables names).lookup binding =
      if binding ∈ names then some { name := binding } else none := by
    induction names using List.reverseRecOn with
    | nil => rfl
    | append_singleton names last ih =>
      rw [blankTables_append]
      change ((last, _) :: blankTables names).lookup binding = _
      rw [List.lookup_cons, ih]
      by_cases same : binding = last
      · simp [same]
      · rw [beq_eq_false_iff_ne.mpr same]
        simp [same]
  rw [blank]
  by_cases known : binding ∈ names
  · rw [if_pos known, if_pos known]
    exact ⟨_, rfl, rfl, rfl, .nil⟩
  · rw [if_neg known, if_neg known]

theorem Prepared.begun (read : File.read table name src = .ok file)
    (prepared : Prepared table file file.decls s₁ s₂) : s₂.Begun file := by
  have lays := (declareDecls_lay SymbolTable.global file.decls).run prepared.declared
  have rooted := lays.rooted fun span id found => by simp at found
  have formed := prepared.first.formed
  have zone : s₁.Zone file (Decl.earlyOf file.decls) := by
    refine ⟨File.read_zoned read, formed, prepared.bared, rooted, fun n member => File.early_subset member, ?_⟩
    have zones := File.zones read
    exact (List.nodup_append.mp zones).1
  have signs := signatures_grant (p := outermost table) file.decls zone formed.root
    (fun n member => List.mem_cons_of_mem _ member) (fun _ h => h)
    (outermost_attached table file.decls) prepared.stand prepared.signed
  obtain ⟨own, es, enlists, -, listed⟩ := signs.entered
  have start : s₁.Grants (Decl.bindingsOf file.decls) [] := by
    intro binding
    have blank := blankTables_grant (Decl.bindingsOf file.decls) binding
    have same : s₁.info.capabilities = blankTables (Decl.bindingsOf file.decls) :=
      lays.capabilities.trans (List.append_nil _)
    rw [← same] at blank
    exact blank
  refine ⟨fun k => ?_, enlists.grants _ _ start, ?_,
    signs.targets, signs.typed, signs.types⟩
  · rw [(signing_vars prepared.second).2, lays.silent]
    rfl
  · have same : s₂.refurbished = es := by
      rw [enlists.refurbished, lays.refurbished]
      exact List.append_nil es
    rw [same]
    exact listed

/-! ### The third pass -/

theorem resolving_tables (run : s.Run (resolving table file).may s') :
    s'.info.capabilities = s.info.capabilities ∧ s'.refurbished = s.refurbished := by
  refine run.keeps (P := fun s' => s'.info.capabilities = s.info.capabilities ∧
    s'.refurbished = s.refurbished) (fun s₁ c allowed before => ?_) ⟨rfl, rfl⟩
  have resolves := allowed.2
  cases c with
  | capabilities _ | refurbish _ _ _ => exact absurd resolves id
  | _ => exact before

theorem Node.of_var_key {n : Node} {span : Span} (key : n.key? = some (.var span)) :
    ∃ d, n = .var d ∧ d.info.span = span := by
  cases n with
  | var d => exact ⟨d, rfl, Key.var.inj (Option.some.inj key)⟩
  | _ => cases key

theorem Passed.visited_expr (passed : Passed table file file.decls s₁ s₂ s) {e : Expr}
    (node : .expr e ∈ file.nodes) : s₂.Visited table file s (.expr e) := by
  have ended := passed.ended
  have inside : .expr e ∈ Decl.nodesOf file.decls := (List.mem_cons.mp node).resolve_left nofun
  rcases Decl.nodesOf_read rfl file.decls inside with early | value | ⟨f, listed, same | held⟩
  · obtain ⟨t, same⟩ | ⟨v, same⟩ := Decl.earlyOf_plain file.decls early
    · cases same
    · cases same
  · exact ended.values _ value
  · cases same
  · exact ended.late f listed _ held

/-- A variable has the type that is written for it, or the one that its value gives it. -/
theorem Passed.carries (read : File.read table name src = .ok file)
    (passed : Passed table file file.decls s₁ s₂ s) {d : VarDecl} (node : .var d ∈ file.nodes) :
    ∃ id, s.info.vars[d.info.span]? = some id ∧ s.Carries d id := by
  have ended := passed.ended
  have begun := passed.begun read
  have zoned := File.read_zoned read
  have listed : ∀ n ∈ file.values, n ∈ file.nodes := fun n member =>
    File.late_subset ((Decl.gathersOf file.decls).subset (List.mem_append_left _ member))
  by_cases visited : s₂.Visited table file s (.var d)
  · obtain ⟨id, noted, -, -, carries⟩ := visited
    exact ⟨id, noted, carries⟩
  -- otherwise nothing that the pass goes over has the key of the variable
  have apart : ∀ n ∈ file.nodes, s₂.Visited table file s n → n.key? ≠ some (.var d.info.span) := by
    intro n inside here key
    obtain ⟨e, rfl, same⟩ := Node.of_var_key key
    exact visited (zoned.vars e d inside node same ▸ here)
  have values : Key.var d.info.span ∉ keysOf file.values := by
    intro member
    obtain ⟨n, member, key⟩ := mem_keysOf.mp member
    exact apart n (listed n member) (ended.values n member) key
  have late : ∀ f ∈ file.funcs, Key.var d.info.span ∉ keysOf f.late := by
    intro f member held
    obtain ⟨n, held, key⟩ := mem_keysOf.mp held
    exact apart n (File.late_subset (File.late_of_func member n held)) (ended.late f member n held) key
  have entry := ended.entry _ values late
  have inside : .var d ∈ Decl.nodesOf file.decls := (List.mem_cons.mp node).resolve_left nofun
  rcases Decl.nodesOf_read rfl file.decls inside with early | value | ⟨f, member, same | held⟩
  · obtain ⟨te, id, t, written, noted, lt, known, type⟩ := begun.typed d early
    have outside : te.span ∉ typeSpans file.late := fun there =>
      (List.nodup_append.mp (File.zones read)).2.2 _ (begun.written d te early written) _ there rfl
    refine ⟨id, (congrArg Entry.var entry).trans noted, fun te' written' => ⟨t, ?_, ?_⟩, fun none => ?_⟩
    · obtain rfl := Option.some.inj (written.symm.trans written')
      rw [(resolving_frames passed.third).2 _ outside, known]
    · exact (ended.reaches.firm.type lt (passed.rooted _ _ noted).2 entry).trans type
    · cases written.symm.trans none
  · exact absurd (mem_keysOf.mpr ⟨_, value, rfl⟩) values
  · cases same
  · exact absurd (mem_keysOf.mpr ⟨_, held, rfl⟩) (late f member)

theorem Passed.ident_type (read : File.read table name src = .ok file)
    (passed : Passed table file file.decls s₁ s₂ s) {d : VarDecl} {te : TypeExpr} {span : Span} {x : String}
    (node : .var d ∈ file.nodes) (written : d.type = some te) (use : .expr (.ident span x) ∈ file.nodes)
    (refers : s.info.uses[span]? = s.info.vars[d.info.span]?) :
    s.info.types[span]? = some (d.storage.typeOf (s.info.typeOfExpr te)) ∧
      s.info.typeNames[span]? = none := by
  obtain ⟨id, noted, carries⟩ := passed.carries read node
  obtain ⟨t, known, type⟩ := carries.written te written
  obtain ⟨-, origin⟩ := passed.ended.rooted _ id noted
  obtain ⟨-, kind⟩ := (passed.third.formed (resolving table file).legal passed.formed).vars _ id noted
  obtain ⟨id', u, t₁, -, lt, after, used, typed, value⟩ := passed.visited_expr use
  obtain rfl : id' = id := Option.some.inj (used.symm.trans (refers.trans noted))
  have kind₁ := ((Regime.grows after.run).symbols.symbol id' lt).kind.symm.trans kind
  have origin₁ := (after.firm.origin id' lt).symm.trans origin
  have given : d.type ≠ none := by
    rw [written]
    exact Option.some_ne_none te
  obtain ⟨own, plain⟩ := value kind₁
  have silent : s₂.info.typeNames[span]? = none :=
    congrArg Entry.named ((passed.begun read).silent span)
  refine ⟨?_, plain.trans silent⟩
  rw [typed, own, ← after.firm.type_of_written node given lt origin₁, type, Info.typeOfExpr,
    Std.TreeMap.getD_eq_getD_getElem?, known]
  rfl

end Resolution

end TastyLang
