import TastyLang.Proofs.Resolution.Hoisting
import TastyLang.Proofs.Resolution.Meaning
import TastyLang.Proofs.Resolution.Passes

/-!
# Where methods stand

After the first two passes every method of a class is noted with the scope of the class's members and
with the class itself (`Prepared.method`), and every parameter has a symbol of its name
(`Prepared.param`). Both passes note each function once and leave what they noted of all others alone
(`State.Spares`).
-/

namespace TastyLang

/-! ### The methods of a file -/

mutual

/-- The methods of the classes of a declaration, each with the place of its class. -/
def Decl.methods : Decl → List (Span × FuncDecl)
  | .scope _ _ ds => Decl.methodsOf ds
  | .cls info _ _ items => (items.flatMap Item.funcs).map fun f => (info.span, f)
  | .item _ | .includes _ _ _ _ | .assume _ _ _ | .abstraction _ _ _ _ | .refurbish _ _ _
  | .attributeDef _ _ _ _ => []

def Decl.methodsOf : List Decl → List (Span × FuncDecl)
  | [] => []
  | d :: ds => d.methods ++ Decl.methodsOf ds

end

def File.methods (file : File) : List (Span × FuncDecl) := Decl.methodsOf file.decls

/-- No two of the functions stand at the same place. -/
def Scattered (fs : List FuncDecl) : Prop := fs.Pairwise fun f g => f.info.span ≠ g.info.span

theorem FuncsLie.scattered {p q : Pos} {fs : List FuncDecl} (h : FuncsLie p fs q) : Scattered fs :=
  h.spread.sorted.imp fun lt same => by
    rw [FuncDecl.offset, FuncDecl.offset, same] at lt
    exact Int.lt_irrefl _ lt

theorem Scattered.apart {fs gs : List FuncDecl} (h : Scattered (fs ++ gs)) {f g : FuncDecl}
    (member : f ∈ fs) (member' : g ∈ gs) : f.info.span ≠ g.info.span :=
  (List.pairwise_append.mp h).2.2 f member g member'

theorem Scattered.left {fs gs : List FuncDecl} (h : Scattered (fs ++ gs)) : Scattered fs :=
  (List.pairwise_append.mp h).1

theorem Scattered.right {fs gs : List FuncDecl} (h : Scattered (fs ++ gs)) : Scattered gs :=
  (List.pairwise_append.mp h).2.1

mutual

theorem Decl.notes_funcs {late : Bool} {f : FuncDecl} : (d : Decl) → f ∈ d.notes late → f ∈ d.funcs
  | .item _, h | .cls _ _ _ _, h | .abstraction _ _ _ _, h | .refurbish _ _ _, h => by
    cases late
    all_goals first
      | exact h
      | cases h
  | .scope _ _ ds, h => Decl.notesOf_funcs ds h
  | .includes _ _ _ _, h | .assume _ _ _, h | .attributeDef _ _ _ _, h => by cases h

theorem Decl.notesOf_funcs {late : Bool} {f : FuncDecl} : (ds : List Decl) →
    f ∈ Decl.notesOf late ds → f ∈ Decl.funcsOf ds
  | d :: ds, h => by
    rcases List.mem_append.mp h with h | h
    · exact List.mem_append_left _ (Decl.notes_funcs d h)
    · exact List.mem_append_right _ (Decl.notesOf_funcs ds h)

end

mutual

theorem Decl.methods_funcs {span : Span} {f : FuncDecl} : (d : Decl) → (span, f) ∈ d.methods →
    f ∈ d.funcs
  | .scope _ _ ds, h => Decl.methodsOf_funcs ds h
  | .cls _ _ _ _, h => by
    obtain ⟨_, member, same⟩ := List.mem_map.mp h
    cases same
    exact member
  | .item _, h | .includes _ _ _ _, h | .assume _ _ _, h | .abstraction _ _ _ _, h
  | .refurbish _ _ _, h | .attributeDef _ _ _ _, h => by cases h

theorem Decl.methodsOf_funcs {span : Span} {f : FuncDecl} : (ds : List Decl) →
    (span, f) ∈ Decl.methodsOf ds → f ∈ Decl.funcsOf ds
  | d :: ds, h => by
    rcases List.mem_append.mp h with h | h
    · exact List.mem_append_left _ (Decl.methods_funcs d h)
    · exact List.mem_append_right _ (Decl.methodsOf_funcs ds h)

end

mutual

theorem Decl.methods_apart {span : Span} {f g : FuncDecl} : (d : Decl) → Scattered d.funcs →
    (span, f) ∈ d.methods → g ∈ d.notes true → g.info.span ≠ f.info.span
  | .scope _ _ ds, scattered, h, h' => Decl.methodsOf_apart ds scattered h h'
  | .cls _ _ _ _, _, _, h' => by cases h'
  | .item _, _, h, _ | .includes _ _ _ _, _, h, _ | .assume _ _ _, _, h, _
  | .abstraction _ _ _ _, _, h, _ | .refurbish _ _ _, _, h, _ | .attributeDef _ _ _ _, _, h, _ => by
    cases h

theorem Decl.methodsOf_apart {span : Span} {f g : FuncDecl} : (ds : List Decl) →
    Scattered (Decl.funcsOf ds) → (span, f) ∈ Decl.methodsOf ds → g ∈ Decl.notesOf true ds →
    g.info.span ≠ f.info.span
  | d :: ds, scattered, h, h' => by
    rcases List.mem_append.mp h with h | h <;> rcases List.mem_append.mp h' with h' | h'
    · exact Decl.methods_apart d scattered.left h h'
    · exact (scattered.apart (Decl.methods_funcs d h) (Decl.notesOf_funcs ds h')).symm
    · exact scattered.apart (Decl.notes_funcs d h') (Decl.methodsOf_funcs ds h)
    · exact Decl.methodsOf_apart ds scattered.right h h'

end

namespace Resolution

variable {table : Table} {file : File} {fs gs gs' : List FuncDecl} {s s' s'' : State} {p : Place}
  {sc : ScopeId}

/-! ### Courses -/

/-- What runs from certain states keep, as long as they keep the states among them. -/
structure Course where
  holds : State → Prop
  leads : State → State → Prop
  refl : ∀ s, leads s s
  trans : ∀ {s s' s''}, leads s s' → leads s' s'' → leads s s''
  lasts : ∀ {s s'}, holds s → leads s s' → holds s'

/-- Every run of `m` from a state of the course keeps to the course. -/
structure Course.Runs {α : Type} (c : Course) (m : Resolver α) : Prop where
  run {s a s'} : c.holds s → m s = .ok (a, s') → c.leads s s'

namespace Course.Runs

variable {c : Course} {α β : Type} {m : Resolver α}

theorem pure {a : α} : c.Runs (pure a) := by
  refine ⟨fun {s a s'} _ run => ?_⟩
  cases run
  exact c.refl s

theorem bind {f : α → Resolver β} (first : c.Runs m) (rest : ∀ a, c.Runs (f a)) :
    c.Runs (m >>= f) := by
  refine ⟨fun {s b s'} holds run => ?_⟩
  obtain ⟨a, s₁, ran, run⟩ := bind_ok run
  have leads := first.run holds ran
  exact c.trans leads ((rest a).run (c.lasts holds leads) run)

theorem map {f : α → β} (h : c.Runs m) : c.Runs (f <$> m) := by
  rw [map_eq_pure_bind]
  exact h.bind fun _ => pure

theorem discard (h : c.Runs m) : c.Runs (discard m) := h.map

theorem get : c.Runs (get : Resolver State) := by
  refine ⟨fun {s a s'} _ run => ?_⟩
  cases run
  exact c.refl s

theorem fail {e : ResolveError} : c.Runs (fail e : Resolver α) :=
  ⟨fun _ run => by cases run⟩

theorem modify {f : State → State} (leads : ∀ s, c.holds s → c.leads s (f s)) : c.Runs (modify f) := by
  refine ⟨fun {s a s'} holds run => ?_⟩
  cases run
  exact leads s holds

theorem forM {f : α → Resolver Unit} {xs : List α} (each : ∀ x ∈ xs, c.Runs (f x)) :
    c.Runs (xs.forM f) := by
  induction xs with
  | nil => exact pure
  | cons x xs ih =>
    exact (each x List.mem_cons_self).bind fun _ => ih fun y member => each y (List.mem_cons_of_mem _ member)

theorem requireFound {p : Place} {names : List String} : c.Runs (requireFound p names) := by
  refine ⟨fun {s _ s'} _ run => ?_⟩
  obtain ⟨rfl, -⟩ := requireFound_ok run
  exact c.refl _

end Course.Runs

/-! ### Functions that are spared -/

/-- What is noted of a function for good: its text, the scope that it stands in, and its class. -/
def FuncState.stand (st : FuncState) : FuncDecl × Option ScopeId × Option SymbolId := (st.decl, st.scope, st.cls)

def State.stand? (s : State) (span : Span) : Option (FuncDecl × Option ScopeId × Option SymbolId) :=
  s.funcs[span]?.map FuncState.stand

theorem State.stand?_modify {span k : Span} {f : FuncState → FuncState}
    (same : ∀ st, (f st).stand = st.stand) :
    State.stand? { s with funcs := s.funcs.modify span f } k = s.stand? k := by
  unfold State.stand?
  rw [Std.TreeMap.getElem?_modify]
  split
  · next here =>
    rw [Std.LawfulEqOrd.eq_of_compare here, Option.map_map]
    exact congrArg (s.funcs[k]?.map ·) (funext same)
  · rfl

theorem State.stand?_insert {span k : Span} {st : FuncState} :
    State.stand? { s with funcs := s.funcs.insert span st } k =
      if span = k then some st.stand else s.stand? k := by
  unfold State.stand?
  rw [Std.TreeMap.getElem?_insert]
  by_cases same : span = k
  · subst same
    rw [if_pos Std.ReflCmp.compare_self, if_pos rfl]
    rfl
  · rw [if_neg fun h => same (Std.LawfulEqOrd.eq_of_compare h), if_neg same]

/-- The signature of the function says what the result is. -/
def FuncDecl.GivesResult (f : FuncDecl) : Prop :=
  f.result.isSome = true ∨ f.kind = .constructor ∨ f.kind = .destructor ∨ f.body = none

/-- An extension has the name that its owner and its own name give. -/
def Extension.Named (e : Extension) : Prop := e.cname = extensionName e.owner e.name

/-- Functions but `gs` stand as before, symbols keep their names, and new parameters are those of `fs`,
with symbols of their names. New results are those that signatures of `fs` say, and new extensions have
the names that belong to them. -/
structure State.Spares (fs gs : List FuncDecl) (s s' : State) : Prop where
  size : s.info.symbols.symbols.size ≤ s'.info.symbols.symbols.size
  name : ∀ id < s.info.symbols.symbols.size,
    (s'.info.symbols.symbol id).name = (s.info.symbols.symbol id).name
  params : ∀ (span : Span) (id : SymbolId), s'.info.params[span]? = some id →
    s.info.params[span]? = some id ∨ id < s'.info.symbols.symbols.size ∧
      ∃ f ∈ fs, ∃ q ∈ f.params, q.span = span ∧ (s'.info.symbols.symbol id).name = q.name
  stand : ∀ span, (∀ g ∈ gs, g.info.span ≠ span) → s'.stand? span = s.stand? span
  results : ∀ span ∈ s'.info.results, span ∈ s.info.results ∨
    ∃ f ∈ fs, f.info.span = span ∧ FuncDecl.GivesResult f
  extensions : ∀ e ∈ s'.info.extensions, e ∈ s.info.extensions ∨ Extension.Named e

theorem State.Spares.refl (fs gs : List FuncDecl) (s : State) : s.Spares fs gs s :=
  ⟨Nat.le_refl _, fun _ _ => rfl, fun _ _ found => .inl found, fun _ _ => rfl,
    fun _ known => .inl known, fun _ known => .inl known⟩

theorem State.Spares.trans (h : s.Spares fs gs s') (h' : s'.Spares fs gs s'') :
    s.Spares fs gs s'' where
  size := Nat.le_trans h.size h'.size
  name id lt := (h'.name id (Nat.lt_of_lt_of_le lt h.size)).trans (h.name id lt)
  params span id found := by
    rcases h'.params span id found with before | new
    · refine (h.params span id before).imp_right fun ⟨lt, f, listed, q, member, own, named⟩ => ?_
      exact ⟨Nat.lt_of_lt_of_le lt h'.size, f, listed, q, member, own, (h'.name id lt).trans named⟩
    · exact .inr new
  stand span away := (h'.stand span away).trans (h.stand span away)
  results span known := (h'.results span known).elim (h.results span) .inr
  extensions e known := (h'.extensions e known).elim (h.extensions e) .inr

theorem State.Spares.more (h : s.Spares fs gs s') (more : ∀ g ∈ gs, g ∈ gs') : s.Spares fs gs' s' :=
  { h with stand := fun span away => h.stand span fun g member => away g (more g member) }

theorem State.Spares.withSymbols {t : SymbolTable} (ext : s.info.symbols.Extends t) :
    s.Spares fs gs (s.withSymbols t) :=
  { State.Spares.refl fs gs s with size := ext.symbols, name := ext.names, params := fun _ _ found => .inl found }

def sparing (fs gs : List FuncDecl) : Course where
  holds _ := True
  leads s s' := s.Spares fs gs s'
  refl := .refl fs gs
  trans h h' := h.trans h'
  lasts _ _ := trivial

/-- A computation that notes no function but `gs`. -/
abbrev Sparing {α : Type} (fs gs : List FuncDecl) (m : Resolver α) : Prop := (sparing fs gs).Runs m

/-- What the first two passes leave of functions, symbols, parameters, results and extensions. -/
def State.notes (s : State) :=
  (s.info.symbols, s.info.params, s.funcs, s.info.results, s.info.extensions)

theorem State.Spares.of_notes (same : s'.notes = s.notes) : s.Spares fs gs s' := by
  simp only [State.notes, Prod.mk.injEq] at same
  obtain ⟨symbols, params, funcs, results, extensions⟩ := same
  refine ⟨Nat.le_of_eq ?_, ?_, ?_, fun span _ => ?_, ?_, ?_⟩
  · rw [symbols]
  · rw [symbols]
    exact fun _ _ => rfl
  · rw [params]
    exact fun _ _ found => .inl found
  · rw [State.stand?, funcs, State.stand?]
  · rw [results]
    exact fun _ known => .inl known
  · rw [extensions]
    exact fun _ known => .inl known

theorem note_spares {f : State → State} (same : ∀ s, (f s).notes = s.notes) : Sparing fs gs (modify f) :=
  .modify fun s _ => .of_notes (same s)

theorem alloc_spares (x : Symbol) : Sparing fs gs (alloc x) := by
  refine ⟨fun {s _ s'} _ run => ?_⟩
  cases (alloc_run x s).symm.trans run
  exact .withSymbols (s.info.symbols.alloc_extends x)

theorem declare_spares (sc : ScopeId) (id : SymbolId) (pos : Pos) :
    Sparing fs gs (declare sc id pos) := by
  refine ⟨fun {s _ s'} _ run => ?_⟩
  obtain ⟨t, declared, rfl⟩ := declare_run run
  exact .withSymbols (SymbolTable.declare_extends declared)

theorem newScope_spares (parent : Option ScopeId) (kind : ScopeKind) (owner : Option SymbolId) :
    Sparing fs gs (newScope parent kind owner) := by
  refine ⟨fun {s _ s'} _ run => ?_⟩
  cases (newScope_run parent kind owner s).symm.trans run
  exact .withSymbols (s.info.symbols.child_extends parent kind owner)

theorem modifySymbol_spares (id : SymbolId) {f : Symbol → Symbol} (name : ∀ x, (f x).name = x.name)
    (kind : ∀ x, (f x).kind = x.kind) : Sparing fs gs (modifySymbol id f) := by
  refine ⟨fun {s _ s'} _ run => ?_⟩
  cases run
  exact .withSymbols (s.info.symbols.modifySymbol_extends id name kind)

theorem setType_spares (id : SymbolId) (t : Ty) : Sparing fs gs (setType id t) :=
  modifySymbol_spares id (fun _ => rfl) fun _ => rfl

theorem newClass_spares (bases : List Ty) : Sparing fs gs (newClass bases) :=
  Course.Runs.get.bind fun _ =>
    .bind (note_spares fun _ => rfl) fun _ => .pure

variable {f : FuncDecl}

theorem noteFunc_spares (member : f ∈ gs) (st : FuncState) :
    Sparing fs gs (noteFunc f st) := by
  refine .modify fun s _ => { State.Spares.refl fs gs s with stand := fun span away => ?_ }
  exact State.stand?_insert.trans (if_neg (away f member))

theorem qualifiedName_spares (id : SymbolId) : Sparing fs gs (qualifiedName id) :=
  Course.Runs.get.bind fun _ => .pure

/-! ### The first pass -/

theorem declareOwner_spares (sc : ScopeId) (x : Symbol) (inner : ScopeKind) (pos : Pos) :
    Sparing fs gs (declareOwner sc x inner pos) :=
  (alloc_spares x).bind fun id => (declare_spares sc id pos).bind fun _ =>
    (newScope_spares sc inner (some id)).bind fun _ =>
      .bind (modifySymbol_spares id (fun _ => rfl) fun _ => rfl) fun _ => .pure

theorem declareFunc_spares (sc : ScopeId) (member : f ∈ gs) :
    Sparing fs gs (declareFunc sc f) := by
  unfold declareFunc
  split
  · exact Course.Runs.get.bind fun _ => noteFunc_spares member _
  · exact (alloc_spares _).bind fun id => (declare_spares sc id _).bind fun _ =>
      Course.Runs.get.bind fun _ => noteFunc_spares member _

theorem declareItem_spares (sc : ScopeId) : (i : Item) → (∀ f ∈ i.funcs, f ∈ gs) →
    Sparing fs gs (declareItem sc i)
  | .var _, _ => (alloc_spares _).bind fun id => (declare_spares sc id _).bind fun _ =>
    note_spares fun _ => rfl
  | .func f, listed => declareFunc_spares sc (listed f List.mem_cons_self)
  | .enum _, _ => (declareOwner_spares sc _ _ _).bind fun made =>
    (qualifiedName_spares made.1).bind fun _ => (setType_spares made.1 _).bind fun _ =>
      .forM fun _ _ => (alloc_spares _).bind fun i => declare_spares made.2 i _
  | .inject _ _, _ => .pure

theorem declareAssumed_spares (sc : ScopeId) (name : String) (kind : AssumeKind) (pos : Pos) :
    Sparing fs gs (declareAssumed sc name kind pos) := by
  have symbol : Sparing fs gs (assumedSymbol name kind pos) := by
    unfold assumedSymbol
    cases kind with
    | cls => exact (newClass_spares []).bind fun _ => Course.Runs.pure.bind fun _ => .pure
    | scope | func | var => exact Course.Runs.pure.bind fun _ => .pure
  refine symbol.bind fun x => (alloc_spares x).bind fun id => ?_
  split
  · exact note_spares fun _ => rfl
  · exact declare_spares sc id pos

theorem namespaceScope_spares (sc : ScopeId) (name : String) (pos : Pos) (ds : List Decl) :
    Sparing fs gs (namespaceScope sc name pos ds) := by
  refine Course.Runs.get.bind fun s => ?_
  dsimp only
  split
  · exact .pure
  · split
    · exact .fail
    · exact .pure
  · exact (declareOwner_spares sc _ _ pos).bind fun made =>
      (qualifiedName_spares made.1).bind fun _ => (setType_spares made.1 _).bind fun _ => .pure

mutual

theorem declareDecl_spares (sc : ScopeId) : (d : Decl) → (∀ f ∈ d.notes false, f ∈ gs) →
    Sparing fs gs (declareDecl sc d)
  | .item i, listed => declareItem_spares sc i listed
  | .assume info name kind, _ => declareAssumed_spares sc name kind info.span.start
  | .scope info name ds, listed => (namespaceScope_spares sc name info.span.start ds).bind fun members =>
    declareDecls_spares members ds listed
  | .cls info name _ items, listed => by
    refine (declareOwner_spares sc _ _ _).bind fun (id, members) => ?_
    refine (qualifiedName_spares id).bind fun full => ?_
    refine (newClass_spares []).bind fun number => (setType_spares id _).bind fun _ => ?_
    refine .bind (note_spares fun _ => rfl) fun _ => ?_
    refine .bind (note_spares fun _ => rfl) fun _ => ?_
    exact .forM fun i member => declareItem_spares members i fun f inside =>
      listed f (List.mem_flatMap.mpr ⟨i, member, inside⟩)
  | .abstraction info name _ fs, listed => (declareOwner_spares sc _ _ _).bind fun (_, members) =>
    (Course.Runs.forM fun f member => declareFunc_spares members (listed f member)).bind fun _ =>
      note_spares fun _ => rfl
  | .attributeDef info name _ _, _ => (alloc_spares _).bind fun id => declare_spares sc id _
  | .includes _ _ _ _, _ | .refurbish _ _ _, _ => .pure

theorem declareDecls_spares (sc : ScopeId) : (ds : List Decl) → (∀ f ∈ Decl.notesOf false ds, f ∈ gs) →
    Sparing fs gs (declareDecls sc ds)
  | [], _ => .pure
  | d :: ds, listed =>
    (declareDecl_spares sc d fun f h => listed f (List.mem_append_left _ h)).bind fun _ =>
      declareDecls_spares sc ds fun f h => listed f (List.mem_append_right _ h)

end

/-! ### The second pass -/

theorem typeExpr_spares (te : TypeExpr) : Sparing fs gs (typeExpr p te) := by
  refine ⟨fun {s t s'} _ run => ?_⟩
  cases (typeExpr_run p te s).symm.trans run
  exact .of_notes rfl

theorem paramSignature_spares (listed : f ∈ fs) {q : Param} (member : q ∈ f.params) :
    Sparing fs gs (do
      let t ← typeExpr p q.type
      let id ← alloc { name := q.name, kind := .param, type := some (q.storage.settled.typeOf t)
                       origin := .other q.span.start }
      modifyInfo fun i => { i with params := i.params.insert q.span id }) := by
  refine (typeExpr_spares q.type).bind fun t => ⟨fun {s _ s'} _ run => ?_⟩
  obtain ⟨id, s₁, made, run⟩ := bind_ok run
  obtain ⟨lt, same⟩ := alloc_ok made
  have first : s.Spares fs gs s₁ := (alloc_spares _).run trivial made
  obtain rfl := modify_ok run
  refine first.trans ?_
  refine { State.Spares.refl fs gs s₁ with params := fun span i found => ?_ }
  rcases getElem?_insert_cases found with ⟨rfl, rfl⟩ | old
  · refine .inr ⟨lt, f, listed, q, member, rfl, ?_⟩
    exact congrArg Symbol.name same
  · exact .inl old

theorem funcSignature_spares (listed : f ∈ fs) : Sparing fs gs (funcSignature p f) := by
  have note (t : Ty) (gives : FuncDecl.GivesResult f) : Sparing fs gs
      (modifyInfo fun i => { i with results := i.results.insert f.info.span t }) := by
    refine .modify fun s _ => { State.Spares.refl fs gs s with results := fun span known => ?_ }
    rcases Std.TreeMap.mem_insert.mp known with same | old
    · exact .inr ⟨f, listed, Std.LawfulEqOrd.eq_of_compare same, gives⟩
    · exact .inl old
  unfold funcSignature
  refine (Course.Runs.forM fun q member => paramSignature_spares listed member).bind fun _ => ?_
  split
  · next r written =>
    rw [map_eq_pure_bind, bind_assoc]
    exact (typeExpr_spares r).bind fun t => note t (.inl (by rw [written]; rfl))
  · split
    · next gives =>
      refine note .void ?_
      simp only [Bool.or_eq_true, beq_iff_eq, Option.isNone_iff_eq_none] at gives
      exact gives.elim (fun kind => .inr (kind.imp_right .inl)) fun none => .inr (.inr (.inr none))
    · exact .pure

theorem addExtension_spares {e : Extension} (named : Extension.Named e) :
    Sparing fs gs (addExtension e) := by
  refine .bind (.modify fun s _ => ?_) fun _ => .modify fun s _ => ?_
  · refine { State.Spares.refl fs gs s with extensions := fun e' known => ?_ }
    refine (List.mem_append.mp known).imp_right fun new => ?_
    rwa [List.mem_singleton.mp new]
  · exact { State.Spares.refl fs gs s with stand := fun _ _ => State.stand?_modify fun _ => rfl }

theorem modifyCapabilities_spares (binding : String) (f : Capabilities → Capabilities) :
    Sparing fs gs (modifyCapabilities binding f) := by
  refine note_spares fun s => ?_
  dsimp only
  split <;> rfl

theorem bindingFunc_spares (listed : f ∈ fs) (binding : String) (self : Ty) :
    Sparing fs gs (bindingFunc p binding self f) := by
  refine (funcSignature_spares listed).bind fun _ => ?_
  split
  · exact modifyCapabilities_spares _ _
  · exact (modifyCapabilities_spares _ _).bind fun _ => addExtension_spares rfl

theorem named_spares (t : Ty) (binding : String) : Sparing fs gs (named t binding) := by
  unfold named
  split
  · exact Course.Runs.get.bind fun _ => (newClass_spares _).bind fun _ => .pure
  · exact .pure

theorem abstractionSignature_spares {name : String} {target : TypeExpr} {ds : List FuncDecl}
    (listed : ∀ f ∈ ds, f ∈ fs) : Sparing fs gs (abstractionSignature p name target ds) := by
  refine (typeExpr_spares target).bind fun t => (modifyCapabilities_spares name _).bind fun _ => ?_
  refine (named_spares t name).bind fun self => Course.Runs.get.bind fun s => ?_
  dsimp only
  split
  · exact .pure
  · exact (setType_spares _ self).bind fun _ =>
      .forM fun f member => bindingFunc_spares (listed f member) name self

theorem refurbishSignature_spares {target : TypeExpr} {ds : List FuncDecl}
    (listed : ∀ f ∈ ds, f ∈ fs) (noted : ∀ f ∈ ds, f ∈ gs) :
    Sparing fs gs (refurbishSignature p target ds) := by
  refine Course.Runs.requireFound.bind fun _ => ?_
  refine (typeExpr_spares target).bind fun t => .forM fun f member => ?_
  refine (noteFunc_spares (noted f member) _).bind fun _ => ?_
  refine (funcSignature_spares (listed f member)).bind fun _ => ?_
  exact .bind (note_spares fun _ => rfl) fun _ => addExtension_spares rfl

theorem itemSignature_spares : (i : Item) → (∀ f ∈ i.funcs, f ∈ fs) → Sparing fs gs (itemSignature p i)
  | .var d, _ => by
    change Sparing fs gs (varSignature p d)
    unfold varSignature
    split
    · exact .pure
    · refine (typeExpr_spares _).bind fun t => Course.Runs.get.bind fun s => ?_
      split
      · exact setType_spares _ _
      · exact .pure
  | .func f, listed => funcSignature_spares (listed f List.mem_cons_self)
  | .enum _, _ | .inject _ _, _ => .pure

theorem classSignature_spares {id : SymbolId} {bases : List TypeExpr} {items : List Item}
    (listed : ∀ f ∈ items.flatMap Item.funcs, f ∈ fs) :
    Sparing fs gs (classSignature p id bases items) := by
  have rest : ∀ q : Place, Sparing fs gs (items.forM (itemSignature q)) := fun q =>
    .forM fun i member => itemSignature_spares i fun f inside =>
      listed f (List.mem_flatMap.mpr ⟨i, member, inside⟩)
  refine Course.Runs.bind (Course.Runs.get.bind fun _ => .pure) fun sym => ?_
  split
  · refine (Course.Runs.forM fun base _ => ?_).bind fun _ => rest _
    refine (typeExpr_spares base).bind fun t => ?_
    split
    · exact note_spares fun _ => rfl
    · exact .pure
  · exact rest _

mutual

theorem signature_spares (p : Place) : (d : Decl) → (∀ f ∈ d.funcs, f ∈ fs) →
    (∀ f ∈ d.notes true, f ∈ gs) → Sparing fs gs (signature p d)
  | .item i, listed, _ => itemSignature_spares i listed
  | .scope info name ds, listed, noted =>
    Course.Runs.get.bind fun s =>
      (namespaceScope_spares p.scope name info.span.start ds).bind fun members =>
        signatures_spares (p.within s.info.symbols name info.span.start members) ds listed noted
  | .cls info _ bases items, listed, _ => by
    refine Course.Runs.get.bind fun s => ?_
    split
    · exact classSignature_spares listed
    · exact .pure
  | .abstraction _ name target ds, listed, _ => abstractionSignature_spares listed
  | .refurbish _ target ds, listed, noted => refurbishSignature_spares listed noted
  | .includes _ _ _ _, _, _ | .assume _ _ _, _, _ | .attributeDef _ _ _ _, _, _ => .pure

theorem signatures_spares (p : Place) : (ds : List Decl) → (∀ f ∈ Decl.funcsOf ds, f ∈ fs) →
    (∀ f ∈ Decl.notesOf true ds, f ∈ gs) → Sparing fs gs (signatures p ds)
  | [], _, _ => .pure
  | d :: ds, listed, noted =>
    (signature_spares p d (fun f h => listed f (List.mem_append_left _ h))
      fun f h => noted f (List.mem_append_left _ h)).bind fun _ =>
      signatures_spares p ds (fun f h => listed f (List.mem_append_right _ h))
        fun f h => noted f (List.mem_append_right _ h)

end

/-! ### Methods are noted with their classes -/

/-- The scope holds the members of the class. -/
structure SymbolTable.Opens (t : SymbolTable) (c : SymbolId) (m : ScopeId) : Prop where
  known : c < t.symbols.size
  inside : m < t.scopes.size
  cls : (t.symbol c).kind = .cls
  kind : (t.scope m).kind = .cls
  owner : (t.scope m).owner = some c

theorem SymbolTable.Opens.mono {t t' : SymbolTable} {c : SymbolId} {m : ScopeId} (h : Opens t c m)
    (grown : t.Grows t') : Opens t' c m where
  known := Nat.lt_of_lt_of_le h.known grown.symbols
  inside := Nat.lt_of_lt_of_le h.inside grown.scopes
  cls := (grown.symbol c h.known).kind.trans h.cls
  kind := (grown.scope m h.inside).kind.trans h.kind
  owner := (grown.scope m h.inside).owner.trans h.owner

theorem declareFunc_houses {c : SymbolId} {m : ScopeId} {u : Unit}
    (opens : SymbolTable.Opens s.info.symbols c m) (run : declareFunc m f s = .ok (u, s')) :
    s'.stand? f.info.span = some (f, some m, some c) := by
  have last : ∀ {s₁ : State} {cls : Option SymbolId}, cls = some c →
      noteFunc f { decl := f, scope := m, cls } s₁ = .ok (u, s') →
        s'.stand? f.info.span = some (f, some m, some c) := by
    intro s₁ cls own run
    obtain rfl := modify_ok run
    refine State.stand?_insert.trans ?_
    rw [if_pos rfl, own]
    rfl
  unfold declareFunc at run
  split at run
  · obtain ⟨_, _, read, run⟩ := bind_ok run
    cases read
    refine last ?_ run
    simp [opens.kind, opens.owner, opens.cls]
  · obtain ⟨id, s₁, made, run⟩ := bind_ok run
    obtain ⟨_, s₂, declared, run⟩ := bind_ok run
    have later : SymbolTable.Opens s₂.info.symbols c m := by
      cases (alloc_run _ s).symm.trans made
      obtain ⟨t, ok, rfl⟩ := declare_run declared
      obtain ⟨rfl, -⟩ := SymbolTable.declare_ok ok
      exact (opens.mono (s.info.symbols.alloc_grows _)).mono (SymbolTable.entered_grows _ m _)
    obtain ⟨_, _, read, run⟩ := bind_ok run
    cases read
    refine last ?_ run
    simp [later.kind, later.owner, later.cls]

theorem declareItems_houses {c : SymbolId} {m : ScopeId} {items : List Item} {u : Unit}
    (formed : s.Formed file) (opens : SymbolTable.Opens s.info.symbols c m)
    (nodes : ∀ n ∈ items.flatMap Item.nodes, n ∈ file.nodes)
    (listed : ∀ f ∈ items.flatMap Item.funcs, f ∈ file.funcs)
    (scattered : Scattered (items.flatMap Item.funcs))
    (run : items.forM (declareItem m) s = .ok (u, s')) :
    ∀ f ∈ items.flatMap Item.funcs, s'.stand? f.info.span = some (f, some m, some c) := by
  induction items generalizing s with
  | nil => exact fun f member => by cases member
  | cons i items ih =>
    obtain ⟨_, s₁, first, rest⟩ := bind_ok run
    obtain ⟨leads, -, -⟩ := declareItem_leads formed opens.inside
      (fun n h => nodes n (List.mem_append_left _ h)) (fun f h => listed f (List.mem_append_left _ h)) first
    intro f member
    rcases List.mem_append.mp member with here | later
    · have noted : s₁.stand? f.info.span = some (f, some m, some c) := by
        cases i with
        | func g =>
          obtain rfl := List.mem_singleton.mp here
          exact declareFunc_houses opens first
        | var d | enum d | inject info text => cases here
      have spares : s₁.Spares [] (items.flatMap Item.funcs) s' :=
        (Course.Runs.forM fun i member => declareItem_spares m i fun f inside =>
          List.mem_flatMap.mpr ⟨i, member, inside⟩).run trivial rest
      rw [spares.stand _ fun g later => (scattered.apart here later).symm, noted]
    · exact ih leads.formed (opens.mono leads.grown.symbols)
        (fun n h => nodes n (List.mem_append_right _ h))
        (fun f h => listed f (List.mem_append_right _ h)) scattered.right rest f later

/-- The function is noted as a method of the class at the place. -/
def State.Houses (s : State) (span : Span) (f : FuncDecl) : Prop :=
  ∃ name c m, (span, name, c) ∈ s.info.classes ∧ (s.info.symbols.symbol c).members = some m ∧
    s.stand? f.info.span = some (f, some m, some c)

theorem State.Houses.mono {span : Span} (formed : s.Formed file) (grown : s.Grows s')
    (same : s'.stand? f.info.span = s.stand? f.info.span) : s.Houses span f → s'.Houses span f := by
  rintro ⟨name, c, m, listed, members, stand⟩
  refine ⟨name, c, m, grown.classes.subset listed, ?_, same.trans stand⟩
  exact (grown.symbols.symbol c (formed.classes _ listed).known).members m members

mutual

theorem declareDecl_houses {u : Unit} {s s' : State} {sc : ScopeId} (formed : s.Formed file)
    (inside : sc < s.info.symbols.scopes.size) : (d : Decl) → (∀ n ∈ d.nodes, n ∈ file.nodes) →
    (∀ f ∈ d.funcs, f ∈ file.funcs) → (∀ name ∈ d.assumes, name ∈ Decl.assumesOf file.decls) →
    Scattered d.funcs → declareDecl sc d s = .ok (u, s') →
    ∀ span f, (span, f) ∈ d.methods → s'.Houses span f
  | .scope info name ds, nodes, listed, assumed, scattered, run => by
    rw [Decl.nodes] at nodes
    obtain ⟨m, s₁, found, run⟩ := bind_ok run
    have binds : file.Binds name := ⟨_, nodes _ List.mem_cons_self, List.mem_singleton_self _⟩
    obtain ⟨first, lt, -⟩ := namespaceScope_leads formed inside binds found
    exact declareDecls_houses first.formed lt ds
      (fun n member => nodes n (List.mem_cons_of_mem _ member)) listed assumed scattered run
  | .cls info name bases items, nodes, listed, _, scattered, run => by
    rw [Decl.nodes] at nodes
    have binds : file.Binds name := ⟨_, nodes _ List.mem_cons_self, List.mem_singleton_self _⟩
    obtain ⟨id, m, s₁, first, lt, isClass, members, kind, owner, classes, -, run⟩ :=
      declareClass_leads formed inside binds run
    have nodes := fun n h => nodes n (List.mem_cons_of_mem _ (List.mem_append_right _ h))
    have opens : SymbolTable.Opens s₁.info.symbols id m :=
      ⟨isClass.known, lt, isClass.kind, kind, owner⟩
    obtain ⟨rest, -⟩ := declareItems_leads first.formed lt nodes listed run
    have houses := declareItems_houses first.formed opens nodes listed scattered run
    rintro span f member
    obtain ⟨g, within, same⟩ := List.mem_map.mp member
    cases same
    refine ⟨name, id, m, rest.grown.classes.subset ?_, ?_, houses f within⟩
    · rw [classes]
      exact List.mem_append_right _ List.mem_cons_self
    · exact (rest.grown.symbols.symbol id isClass.known).members m members
  | .item _, _, _, _, _, _ | .assume _ _ _, _, _, _, _, _ | .abstraction _ _ _ _, _, _, _, _, _
  | .refurbish _ _ _, _, _, _, _, _ | .includes _ _ _ _, _, _, _, _, _
  | .attributeDef _ _ _ _, _, _, _, _, _ => fun _ _ member => by cases member

theorem declareDecls_houses {u : Unit} {s s' : State} {sc : ScopeId} (formed : s.Formed file)
    (inside : sc < s.info.symbols.scopes.size) : (ds : List Decl) →
    (∀ n ∈ Decl.nodesOf ds, n ∈ file.nodes) → (∀ f ∈ Decl.funcsOf ds, f ∈ file.funcs) →
    (∀ name ∈ Decl.assumesOf ds, name ∈ Decl.assumesOf file.decls) →
    Scattered (Decl.funcsOf ds) → declareDecls sc ds s = .ok (u, s') →
    ∀ span f, (span, f) ∈ Decl.methodsOf ds → s'.Houses span f
  | [], _, _, _, _, _ => fun _ _ member => by cases member
  | d :: ds, nodes, listed, assumed, scattered, run => by
    simp only [Decl.nodesOf, Decl.funcsOf, Decl.assumesOf, List.mem_append] at nodes listed assumed
    obtain ⟨_, s₁, here, run⟩ := bind_ok run
    obtain ⟨first, -, -⟩ := declareDecl_leads formed inside d (fun n h => nodes n (.inl h))
      (fun f h => listed f (.inl h)) (fun name h => assumed name (.inl h)) here
    have inside₁ := Nat.lt_of_lt_of_le inside first.grown.symbols.scopes
    obtain ⟨second, -, -⟩ := declareDecls_leads first.formed inside₁ ds (fun n h => nodes n (.inr h))
      (fun f h => listed f (.inr h)) (fun name h => assumed name (.inr h)) run
    intro span f member
    rcases List.mem_append.mp member with member | member
    · have houses := declareDecl_houses formed inside d (fun n h => nodes n (.inl h))
        (fun f h => listed f (.inl h)) (fun name h => assumed name (.inl h)) scattered.left here span f
        member
      have spares : s₁.Spares [] (Decl.notesOf false ds) s' :=
        (declareDecls_spares sc ds fun _ h => h).run trivial run
      refine houses.mono first.formed second.grown (spares.stand _ fun g later => ?_)
      exact (scattered.apart (Decl.methods_funcs d member) (Decl.notesOf_funcs ds later)).symm
    · exact declareDecls_houses first.formed inside₁ ds (fun n h => nodes n (.inr h))
        (fun f h => listed f (.inr h)) (fun name h => assumed name (.inr h)) scattered.right run span f
        member

end

/-! ### After both passes -/

variable {s₁ s₂ : State}

theorem Prepared.method {name src : String} (read : File.read table name src = .ok file)
    (prepared : Prepared table file file.decls s₁ s₂) {span : Span}
    (member : (span, f) ∈ file.methods) :
    ∃ c m, s₂.info.classSymbol? span = some c ∧ (s₂.info.symbols.symbol c).members = some m ∧
      s₂.stand? f.info.span = some (f, some m, some c) := by
  obtain ⟨p, q, lies⟩ := File.read_lies read
  have scattered := lies.funcs.scattered
  have houses := declareDecls_houses (State.formed_initial file) Nat.zero_lt_one file.decls
    (fun n h => List.mem_cons_of_mem _ h) (fun _ h => h) (fun _ h => h) scattered prepared.declared
    span f member
  have spares : s₁.Spares file.funcs (Decl.notesOf true file.decls) s₂ :=
    (signatures_spares _ file.decls (fun _ h => h) fun _ h => h).run trivial prepared.signed
  have grown : s₁.Grows s₂ := Regime.grows prepared.second
  obtain ⟨name, c, m, listed, members, stand⟩ := houses.mono prepared.first.formed grown
    (spares.stand _ fun g later => Decl.methodsOf_apart file.decls scattered member later)
  refine ⟨c, m, ?_, members, stand⟩
  -- the places of the classes are those of the declarations
  have charted := (declareDecls_charts State.charted_initial .root file.decls prepared.declared).charted
  have classes : s₂.info.classes = s₁.info.classes := (signing_frames prepared.second).classes
  have same : s₁.info.classes.map (·.1) = file.chart.classes.map (·.1) := by
    have paired := charted.classes.imp fun _ _ known => known.1
    rwa [← List.forall₂_eq_eq_eq, List.forall₂_map_left_iff, List.forall₂_map_right_iff]
  have once : (s₂.info.classes.map (·.1)).Nodup := by
    rw [classes, same]
    refine List.Nodup.of_map (fun span => span.start.offset) ?_
    rw [List.map_map]
    exact File.chart_once read
  rw [Info.classSymbol?, lookup_of_mem once listed]
  rfl

theorem Prepared.spares (prepared : Prepared table file file.decls s₁ s₂) :
    State.Spares file.funcs (Decl.notesOf false file.decls ++ Decl.notesOf true file.decls) {} s₂ := by
  have first : State.Spares file.funcs (Decl.notesOf false file.decls) {} s₁ :=
    (declareDecls_spares _ file.decls fun _ h => h).run trivial prepared.declared
  have second : s₁.Spares file.funcs (Decl.notesOf true file.decls) s₂ :=
    (signatures_spares _ file.decls (fun _ h => h) fun _ h => h).run trivial prepared.signed
  exact (first.more fun _ => List.mem_append_left _).trans (second.more fun _ => List.mem_append_right _)

theorem Prepared.param {name src : String} (read : File.read table name src = .ok file)
    (prepared : Prepared table file file.decls s₁ s₂) (listed : f ∈ file.funcs) {q : Param}
    (member : q ∈ f.params) {id : SymbolId} (found : s₂.info.params[q.span]? = some id) :
    id < s₂.info.symbols.symbols.size ∧ (s₂.info.symbols.symbol id).name = q.name := by
  obtain ⟨p₁, p₂, lies⟩ := File.read_lies read
  rcases prepared.spares.params _ _ found with old | ⟨lt, g, listed', r, member', same, named⟩
  · simp at old
  · refine ⟨lt, named.trans (congrArg Param.name ?_)⟩
    have once : ((file.funcs.flatMap FuncDecl.params).map Param.offset).Nodup := by
      rw [List.Nodup, List.pairwise_map]
      exact lies.funcs.params.sorted.imp fun lt => Int.ne_of_lt lt
    refine List.inj_on_of_nodup_map once (List.mem_flatMap.mpr ⟨g, listed', member'⟩)
      (List.mem_flatMap.mpr ⟨f, listed, member⟩) ?_
    rw [Param.offset, Param.offset, same]

end Resolution

end TastyLang
