import TastyLang.Proofs.Resolution.Standing

/-!
# Signatures are covered

The regime of the second pass: it declares nothing and opens no scope, and it notes the written types
of a zone only, the signatures that it goes over. What classes and abstract bindings are it changes
only where it comes to one. Under this regime every written type of a signature is noted, and every
function is noted and its parameters get symbols (`State.Signed`).
-/

namespace TastyLang.Resolution

variable {file : File} {s s' : State} {sc : ScopeId} {p : Place} {zone : List Node} {b : Bool}

/-! ### The regime of the second pass -/

/-- A change of the second pass that notes types of a zone; `shapes` allows it to change the
hierarchy and what a binding stands for. -/
def Change.Signs (zone : List Node) (shapes : Bool) (s : State) : Change → Prop
  | written span _ => ∃ t, .type t ∈ zone ∧ t.span = span
  | alloc x => x.kind = .param
  | type id _ => shapes = true ∨ (s.info.symbols.symbol id).kind = .var
  | newClass _ | addBase _ _ => shapes = true
  | capabilities _ | extension _ | extended _ | func _ _ | refurbish _ _ _ | param _ _
  | result _ _ => True
  | _ => False

/-- A namespace without members is one that the file assumes. -/
def State.Bared (file : File) (s : State) : Prop :=
  ∀ sc id, s.info.symbols.Bare sc id →
    ∃ info, .decl (.assume info (s.info.symbols.symbol id).name .scope) ∈ file.nodes

theorem Change.bare {c : Change} (signs : c.Signs zone b s) (formed : s.Formed file) (sc : ScopeId)
    (id : SymbolId) : (c.apply s).info.symbols.Bare sc id ↔ s.info.symbols.Bare sc id := by
  cases c with
  | alloc x =>
    refine and_congr_right fun member => ?_
    have same := s.info.symbols.symbol_alloc x id
    rw [if_neg (Nat.ne_of_lt (formed.orders sc id member).1)] at same
    exact same ▸ Iff.rfl
  | type i t =>
    refine and_congr_right fun _ => ?_
    change ((SymbolTable.modifySymbol _ _ _).symbol id).kind = _ ∧
      ((SymbolTable.modifySymbol _ _ _).symbol id).members = _ ↔ _
    rw [SymbolTable.symbol_modifySymbol]
    split <;> exact Iff.rfl
  | newClass _ | addBase _ _ | capabilities _ | extension _ | extended _ | func _ _
  | refurbish _ _ _ | param _ _ | result _ _ | written _ _ => exact Iff.rfl
  | _ => exact absurd signs (by simp [Change.Signs])

def signing (file : File) (zone : List Node) (shapes : Bool) : Regime file where
  may s c := c.Legal file s ∧ c.Signs zone shapes s
  relies s := s.Bared file
  legal _ _ h := h.1
  steady s c h := by
    cases c with
    | var span x => exact absurd h.2 id
    | _ => trivial
  lasting s c h formed bared sc id bare := by
    have before := (Change.bare h.2 formed sc id).mp bare
    have known := (formed.orders sc id before.1).1
    rw [((Change.grows h.1).symbols.symbol id known).name]
    exact bared sc id before

theorem State.Bared.run (bared : s.Bared file) (formed : s.Formed file)
    (run : s.Run (signing file zone b).may s') : s'.Bared file :=
  (Regime.Ready.run (r := signing file zone b) ⟨formed, bared, formed.root⟩ run).relies

theorem signing_writes : (signing file zone b).Writes zone :=
  fun _ t _ inside => ⟨trivial, t, inside, rfl⟩

theorem signing_mono {wide : List Node} (more : ∀ n ∈ zone, n ∈ wide)
    (run : s.Run (signing file zone b).may s') : s.Run (signing file wide true).may s' := by
  refine run.mono fun s c allowed => ⟨allowed.1, ?_⟩
  have signs := allowed.2
  cases c with
  | written span u =>
    obtain ⟨t, inside, own⟩ := signs
    exact ⟨t, more _ inside, own⟩
  | type id t => exact .inl rfl
  | newClass _ | addBase _ _ => exact rfl
  | _ => exact signs

theorem signing_fresh (run : s.Run (signing file zone b).may s') (fresh : s.Fresh) : s'.Fresh := by
  refine run.keeps (fun s c allowed fresh => Change.fresh allowed.1 ?_ fresh) fresh
  cases c with
  | phase span p => exact absurd allowed.2 id
  | use span x => exact absurd allowed.2 id
  | _ => trivial

/-! ### What the second pass leaves -/

/-- A function is noted and its parameters have symbols. -/
structure State.Signed (s : State) (f : FuncDecl) : Prop where
  noted : f.info.span ∈ s.funcs
  params : ∀ q ∈ f.params, q.span ∈ s.info.params

theorem State.Signed.lasts (r : Regime file) : r.Lasts State.Signed :=
  fun _ run h => ⟨(Regime.grows run).funcs _ h.noted,
    fun q member => (Regime.grows run).params _ (h.params q member)⟩

/-! ### Signatures -/

variable {id : SymbolId}

theorem alloc_signs {x : Symbol} (none : x.members = none) (kind : x.kind = .param)
    (run : alloc x s = .ok (id, s')) : s.Run (signing file zone b).may s' := by
  cases (alloc_run x s).symm.trans run
  exact .one (c := .alloc x) ⟨none, kind⟩

variable {u : Unit}

theorem param_signs {q : Param} (inside : ∀ n ∈ q.type.nodes, n ∈ zone)
    (binds : file.BindsLocally q.name) (ready : (signing file zone b).Ready sc s)
    (run : (do
      let t ← typeExpr p q.type
      let id ← alloc { name := q.name, kind := .param, type := some (q.storage.settled.typeOf t)
                       origin := .other q.span.start }
      modifyInfo fun i => { i with params := i.params.insert q.span id } : Resolver Unit) s =
        .ok (u, s')) :
    s.Run (signing file zone b).may s' ∧
      ((∀ n ∈ q.type.nodes, s'.Noted file n) ∧ q.span ∈ s'.info.params) := by
  obtain ⟨t, s₁, _, ready₁, run₁, noted, run⟩ :=
    (typeExpr_covers signing_writes q.type inside).first_ok ready run
  obtain ⟨id, s₂, made, run⟩ := bind_ok run
  obtain ⟨known, same⟩ := alloc_ok made
  cases run
  have last : (signing file zone b).may s₂ (.param q.span id) := by
    refine ⟨⟨known, ?_, ?_⟩, trivial⟩
    · rw [same]
    · rw [same]
      exact binds
  have run₂ := (alloc_signs rfl rfl made).trans (.one last)
  exact ⟨run₁.trans run₂, fun n member => Regime.noted ready₁.formed run₂ (noted n member),
    Std.TreeMap.mem_insert_self⟩

theorem funcSignature_signs {f : FuncDecl} (node : .func f ∈ file.nodes)
    (inside : ∀ n ∈ f.early, n ∈ zone) (ready : (signing file zone b).Ready sc s)
    (noted : f.info.span ∈ s.funcs) (run : funcSignature p f s = .ok (u, s')) :
    s.Run (signing file zone b).may s' ∧ s'.Reached file State.Signed f.early [f] := by
  unfold funcSignature at run
  simp only [FuncDecl.early, List.mem_append, List.mem_flatMap] at inside
  obtain ⟨_, s₁, params, run⟩ := bind_ok run
  obtain ⟨run₁, params⟩ := Regime.forM_run (fun q s => (∀ n ∈ q.type.nodes,
      s.Noted file n) ∧ q.span ∈ s.info.params) ready
    (fun q _ _ _ formed run h => ⟨fun n member => Regime.noted formed run (h.1 n member),
      (Regime.grows run).params _ h.2⟩)
    (fun q member _ _ _ ready turn => param_signs
      (fun n h => inside n (.inl ⟨q, member, h⟩))
      ⟨_, node, List.mem_map_of_mem member⟩ ready turn) params
  have ready₁ := ready.run run₁
  have write : ∀ result : Option Ty, Covers (signing file zone b) sc (noteResult? f.info.span result) [] := by
    intro result
    cases result with
    | some t => exact change_covers (.result f.info.span t) (fun _ => rfl) fun _ _ => ⟨trivial, trivial⟩
    | none => exact .pure
  obtain ⟨run₂, result⟩ : s₁.Run (signing file zone b).may s' ∧
      ∀ n ∈ nodesIn TypeExpr.nodes f.result, s'.Noted file n := by
    refine Covers.run (Covers.mono (?_ : Covers (signing file zone b) sc _
      (nodesIn TypeExpr.nodes f.result)) fun _ h => h) ready₁ run
    split
    · next r written =>
      rw [written] at inside ⊢
      exact (typeExpr_covers signing_writes r fun n h => inside n (.inr h)).map.before write
    · next none =>
      rw [none]
      split <;> exact Covers.pure.after write
  refine ⟨run₁.trans run₂, ⟨fun n member => ?_, fun g member => ?_⟩⟩
  · rcases List.mem_append.mp member with member | member
    · obtain ⟨q, listed, member⟩ := List.mem_flatMap.mp member
      exact Regime.noted ready₁.formed run₂ ((params q listed).1 n member)
    · exact result n member
  · obtain rfl := List.mem_singleton.mp member
    exact ⟨(Regime.grows (run₁.trans run₂)).funcs _ noted,
      fun q member => (Regime.grows run₂).params _ (params q member).2⟩

theorem modifyCapabilities_covers (binding : String) (f : Capabilities → Capabilities) :
    Covers (signing file zone b) sc (modifyCapabilities binding f) [] := by
  refine ⟨fun {s _ s'} _ run => ⟨?_, by simp⟩⟩
  cases run
  have allowed : ∀ cs, (signing file zone b).may s (.capabilities cs) := fun _ => ⟨trivial, trivial⟩
  dsimp only
  split
  · exact .one (allowed _)
  · exact .refl _

theorem addExtension_covers (e : Extension) : Covers (signing file zone b) sc (addExtension e) [] := by
  have first : Covers (signing file zone b) sc
      (modifyInfo fun i => { i with extensions := i.extensions ++ [e] }) [] :=
    change_covers (.extension e) (fun _ => rfl) fun _ _ => ⟨trivial, trivial⟩
  exact first.after fun _ =>
    change_covers (.extended e) (fun _ => rfl) fun _ _ => ⟨trivial, trivial⟩

theorem bindingFunc_signs {binding : String} {self : Ty} {f : FuncDecl}
    (node : .func f ∈ file.nodes) (inside : ∀ n ∈ f.early, n ∈ zone)
    (ready : (signing file zone b).Ready sc s) (noted : f.info.span ∈ s.funcs)
    (run : bindingFunc p binding self f s = .ok (u, s')) :
    s.Run (signing file zone b).may s' ∧ s'.Reached file State.Signed f.early [f] := by
  obtain ⟨_, s₁, signed, run⟩ := bind_ok run
  obtain ⟨run₁, signed⟩ := funcSignature_signs node inside ready noted signed
  have ready₁ := ready.run run₁
  have last : s₁.Run (signing file zone b).may s' := by
    refine (Covers.run (?_ : Covers _ _ _ []) ready₁ run).1
    split
    · exact modifyCapabilities_covers binding _
    · exact (modifyCapabilities_covers binding _).after fun _ => addExtension_covers _
  exact ⟨run₁.trans last, signed.run (State.Signed.lasts _) ready₁.formed last⟩

theorem newClass_covers (bases : List Ty) : Covers (signing file zone true) sc (newClass bases) [] := by
  refine Covers.get.after fun s => ?_
  have first : Covers (signing file zone true) sc (modifyInfo fun i =>
      { i with hierarchy := ⟨i.hierarchy.bases ++ [bases]⟩ }) [] :=
    change_covers (.newClass bases) (fun _ => rfl) fun _ _ => ⟨trivial, rfl⟩
  exact first.after fun _ => .pure

theorem named_covers (t : Ty) (binding : String) :
    Covers (signing file zone true) sc (named t binding) [] := by
  unfold named
  split
  · exact Covers.get.after fun _ => (newClass_covers _).after fun _ => .pure
  · exact .pure

variable {fs : List FuncDecl}

theorem bindingFuncs_signs {binding : String} {self : Ty}
    (nodes : ∀ n ∈ fs.flatMap FuncDecl.nodes, n ∈ file.nodes)
    (inside : ∀ n ∈ fs.flatMap FuncDecl.early, n ∈ zone) (ready : (signing file zone b).Ready sc s)
    (noted : ∀ f ∈ fs, f.info.span ∈ s.funcs)
    (run : fs.forM (bindingFunc p binding self) s = .ok (u, s')) :
    s.Run (signing file zone b).may s' ∧ s'.Reached file State.Signed (fs.flatMap FuncDecl.early) fs := by
  obtain ⟨run, signed⟩ := Regime.forM_run
    (fun (f : FuncDecl) s => s.Reached file State.Signed f.early [f]) ready
    (fun f _ _ _ formed run h => h.run (State.Signed.lasts _) formed run)
    (fun f member _ _ before ready turn => bindingFunc_signs
      (nodes _ (List.mem_flatMap.mpr ⟨f, member, List.mem_cons_self⟩))
      (fun n h => inside n (List.mem_flatMap.mpr ⟨f, member, h⟩)) ready
      ((Regime.grows before).funcs _ (noted f member)) turn) run
  have whole : s'.Reached file State.Signed (fs.flatMap FuncDecl.early) (fs.flatMap fun f => [f]) :=
    .flatMap signed
  exact ⟨run, by simpa using whole⟩

theorem setType_signs {t : Ty} (kind : (s.info.symbols.symbol id).kind.settles = false)
    (shapes : b = true ∨ (s.info.symbols.symbol id).kind = .var)
    (run : setType id t s = .ok (u, s')) : s.Run (signing file zone b).may s' := by
  cases run
  exact .one (c := .type id t) ⟨.inr kind, shapes⟩

variable {target : TypeExpr} {name : String}

/-- The steps of a binding's signature: its target is read, then the binding gets its type, and its
functions follow in the scope of its members. -/
theorem abstractionSignature_steps
    (formed : s.Formed file) (bared : s.Bared file) (inside : p.scope < s.info.symbols.scopes.size)
    (stands : ∃ id, s.info.symbols.lookupLocal? p.scope name = some id ∧
      (s.info.symbols.symbol id).kind = .abstraction)
    (run : abstractionSignature p name target fs s = .ok (u, s')) :
    ∃ t s₁ s₂ self s₃ id s₄ m, typeExpr p target s = .ok (t, s₁) ∧
      s.Run (signing file target.nodes false).may s₁ ∧ (∀ n ∈ target.nodes, s₁.Noted file n) ∧
      modifyCapabilities name (fun c => { c with target := some t }) s₁ = .ok ((), s₂) ∧
      s₁.Run (signing file [] false).may s₂ ∧ named t name s₂ = .ok (self, s₃) ∧
      s₂.info.symbols.lookupLocal? p.scope name = some id ∧
      (s₂.info.symbols.symbol id).kind = .abstraction ∧ setType id self s₃ = .ok ((), s₄) ∧
      s₂.Run (signing file [] true).may s₄ ∧ m < s₄.info.symbols.scopes.size ∧
      m = (s₃.info.symbols.symbol id).members.getD p.scope ∧
      fs.forM (bindingFunc { p with scope := m } name self) s₄ = .ok (u, s') := by
  obtain ⟨t, s₁, read, run⟩ := bind_ok run
  have ready : (signing file target.nodes false).Ready p.scope s := ⟨formed, bared, inside⟩
  obtain ⟨run₁, written⟩ := (typeExpr_covers signing_writes target fun _ h => h).run ready read
  obtain ⟨formed₁, bared₁, inside₁⟩ := ready.run run₁
  have note : ∀ f, Covers (signing file [] false) p.scope (modifyCapabilities name f) [] :=
    modifyCapabilities_covers name
  obtain ⟨_, s₂, capable, ready₂, run₂, -, run⟩ :=
    (note _).first_ok ⟨formed₁, bared₁, inside₁⟩ run
  obtain ⟨id, found, kind⟩ := stands
  have grown₂ := (Regime.grows run₁).trans (Regime.grows run₂)
  obtain ⟨found₂, later₂⟩ := lookupLocal?_mono formed grown₂ inside found
  have name_ : Covers (signing file [] true) p.scope (named t name) [] := named_covers t name
  obtain ⟨self, s₃, made, ready₃, run₃, -, run⟩ :=
    name_.first_ok ⟨ready₂.formed, ready₂.relies, ready₂.inside⟩ run
  obtain ⟨found₃, later₃⟩ :=
    lookupLocal?_mono ready₂.formed (Regime.grows run₃) ready₂.inside found₂
  obtain ⟨_, _, read', run⟩ := bind_ok run
  cases read'
  dsimp only at run
  rw [found₃] at run
  obtain ⟨_, s₄, typed, run⟩ := bind_ok run
  have run₄ : s₃.Run (signing file [] true).may s₄ :=
    setType_signs (by rw [later₃.kind, later₂.kind, kind]; rfl) (.inl rfl) typed
  refine ⟨t, s₁, s₂, self, s₃, id, s₄, _, read, run₁, written, capable, run₂, made, found₂,
    later₂.kind.trans kind, typed, run₃.trans run₄, ?_, rfl, run⟩
  refine Nat.lt_of_lt_of_le ?_ (Regime.grows run₄).symbols.scopes
  cases members : (s₃.info.symbols.symbol id).members with
  | none => exact ready₃.inside
  | some m => exact ready₃.formed.members id m members

theorem abstractionSignature_signs
    (nodes : ∀ n ∈ fs.flatMap FuncDecl.nodes, n ∈ file.nodes)
    (targets : ∀ n ∈ target.nodes, n ∈ zone)
    (inside : ∀ n ∈ fs.flatMap FuncDecl.early, n ∈ zone)
    (ready : (signing file zone true).Ready p.scope s)
    (stands : ∃ id, s.info.symbols.lookupLocal? p.scope name = some id ∧
      (s.info.symbols.symbol id).kind = .abstraction)
    (noted : ∀ f ∈ fs, f.info.span ∈ s.funcs)
    (run : abstractionSignature p name target fs s = .ok (u, s')) :
    s.Run (signing file zone true).may s' ∧
      s'.Reached file State.Signed (target.nodes ++ fs.flatMap FuncDecl.early) fs := by
  obtain ⟨t, s₁, s₂, self, s₃, id, s₄, m, -, run₁, written, -, run₂, -, -, -, -, run₃, open_, -, run⟩ :=
    abstractionSignature_steps ready.formed ready.relies ready.inside stands run
  have run₁ : s.Run (signing file zone true).may s₁ := signing_mono targets run₁
  have run₂ : s₁.Run (signing file zone true).may s₄ :=
    (signing_mono (by simp) run₂).trans (signing_mono (by simp) run₃)
  have ready₁ := ready.run run₁
  obtain ⟨run₅, signed⟩ := bindingFuncs_signs nodes inside
    ⟨(ready₁.run run₂).formed, (ready₁.run run₂).relies, open_⟩
    (fun f member => (Regime.grows (run₁.trans run₂)).funcs _ (noted f member)) run
  refine ⟨run₁.trans (run₂.trans run₅), .more (fun n member => ?_) signed⟩
  exact Regime.noted ready₁.formed (run₂.trans run₅) (written n member)

/-- Where a block has no scope, the functions that its declarations add may stand in none. -/
def Place.Attached (file : File) (p : Place) (ds : List Decl) : Prop :=
  p.bare.isSome → ∀ info target fs, .refurbish info target fs ∈ ds → file.Detaches

theorem Place.Attached.home {info : DeclInfo} (attached : p.Attached file [.refurbish info target fs])
    (inside : p.scope < s.info.symbols.scopes.size) : file.Encloses s.info.symbols p.home := by
  unfold Place.home
  cases bare : p.bare with
  | none => exact inside
  | some _ => exact attached (by simp [bare]) _ _ _ List.mem_cons_self

theorem Place.Attached.head {d : Decl} {ds : List Decl} (attached : p.Attached file (d :: ds)) :
    p.Attached file [d] := fun bare info target fs inside =>
  attached bare info target fs (List.mem_cons.mpr (.inl (List.mem_singleton.mp inside)))

theorem Place.Attached.tail {d : Decl} {ds : List Decl} (attached : p.Attached file (d :: ds)) :
    p.Attached file ds := fun bare info target fs inside =>
  attached bare info target fs (List.mem_cons_of_mem _ inside)

/-- A block that has no scope joins a namespace that the file assumes. -/
theorem State.Bared.within {info : DeclInfo} {ds : List Decl} {m : ScopeId} (bared : s.Bared file)
    (block : .decl (.scope info name ds) ∈ file.nodes) :
    (p.within s.info.symbols name info.span.start m).Attached file ds := by
  intro bare info' target fs inside
  simp only [Place.within] at bare
  split at bare
  · next isBare =>
    obtain ⟨id, found, bare⟩ := SymbolTable.bare_of_isBare isBare
    obtain ⟨assumed, named⟩ := bared _ _ bare
    rw [(SymbolTable.lookupLocal?_mem found).2] at named
    exact ⟨assumed, info, name, ds, named, block, info', target, fs, inside⟩
  · cases bare

theorem requireFound_ok {names : List String} (run : requireFound p names s = .ok (u, s')) :
    s' = s ∧ (p.bare.isSome → ∀ name ∈ names, s.finds p.table name = true) := by
  unfold requireFound at run
  cases bare : p.bare with
  | none =>
    rw [bare] at run
    cases run
    exact ⟨rfl, fun h => by cases h⟩
  | some block =>
    rw [bare] at run
    obtain ⟨_, _, read, run⟩ := bind_ok run
    cases read
    split at run
    · next found =>
      cases run
      exact ⟨rfl, fun _ => List.all_eq_true.mp found⟩
    · cases run

theorem refurbishFunc_signs {t : Ty} {f : FuncDecl} (listed : f ∈ file.funcs)
    (home : file.Encloses s.info.symbols p.home) (node : .func f ∈ file.nodes) (inside : ∀ n ∈ f.early, n ∈ zone)
    (ready : (signing file zone b).Ready p.scope s)
    (run : (do
      noteFunc f { decl := f, scope := p.home }
      funcSignature p f
      let e : Extension :=
        ⟨target.text, f.name, extensionName target.text f.name, f.info.span, .reference t false⟩
      modify fun s => { s with refurbished := (t.text, f.name, e) :: s.refurbished }
      addExtension e : Resolver Unit) s = .ok (u, s')) :
    s.Run (signing file zone b).may s' ∧ s'.Reached file State.Signed f.early [f] := by
  obtain ⟨_, s₁, noted, run⟩ := bind_ok run
  cases noted
  have first : (signing file zone b).may s (.func f.info.span { decl := f, scope := p.home }) :=
    ⟨⟨listed, rfl, rfl, home, nofun⟩, trivial⟩
  obtain ⟨_, s₂, signed, run⟩ := bind_ok run
  obtain ⟨run₂, signed⟩ := funcSignature_signs node inside (ready.run (.one first))
    Std.TreeMap.mem_insert_self signed
  have ready₂ := (ready.run (.one first)).run run₂
  have last : s₂.Run (signing file zone b).may s' := by
    refine (Covers.run (?_ : Covers _ _ _ []) ready₂ run).1
    refine Covers.after ?_ fun _ => addExtension_covers _
    exact change_covers (.refurbish t.text f.name _) (fun _ => rfl) fun _ _ => ⟨trivial, trivial⟩
  exact ⟨.step first (run₂.trans last), signed.run (State.Signed.lasts _) ready₂.formed last⟩

theorem refurbishSignature_signs {info : DeclInfo} (listed : ∀ f ∈ fs, f ∈ file.funcs)
    (attached : p.Attached file [.refurbish info target fs])
    (nodes : ∀ n ∈ fs.flatMap FuncDecl.nodes, n ∈ file.nodes)
    (targets : ∀ n ∈ target.nodes, n ∈ zone) (inside : ∀ n ∈ fs.flatMap FuncDecl.early, n ∈ zone)
    (ready : (signing file zone b).Ready p.scope s)
    (run : refurbishSignature p target fs s = .ok (u, s')) :
    s.Run (signing file zone b).may s' ∧
      s'.Reached file State.Signed (target.nodes ++ fs.flatMap FuncDecl.early) fs := by
  obtain ⟨_, _, found, rest⟩ := bind_ok run
  obtain ⟨rfl, -⟩ := requireFound_ok found
  obtain ⟨t, s₁, _, ready₁, run₁, written, run⟩ :=
    (typeExpr_covers signing_writes target targets).first_ok ready rest
  obtain ⟨run₂, signed⟩ := Regime.forM_run
    (fun (f : FuncDecl) s => s.Reached file State.Signed f.early [f]) ready₁
    (fun f _ _ _ formed run h => h.run (State.Signed.lasts _) formed run)
    (fun f member _ _ _ ready turn => refurbishFunc_signs (listed f member)
      (attached.home ready.inside)
      (nodes _ (List.mem_flatMap.mpr ⟨f, member, List.mem_cons_self⟩))
      (fun n h => inside n (List.mem_flatMap.mpr ⟨f, member, h⟩)) ready turn) run
  have whole : s'.Reached file State.Signed (fs.flatMap FuncDecl.early) (fs.flatMap fun f => [f]) :=
    .flatMap signed
  refine ⟨run₁.trans run₂, .more (fun n member => ?_) (by simpa using whole)⟩
  exact Regime.noted ready₁.formed run₂ (written n member)

theorem varSignature_signs {d : VarDecl}
    (inside : ∀ n ∈ nodesIn (fun t => .var d :: t.nodes) d.type, n ∈ zone)
    (ready : (signing file zone b).Ready sc s) (stands : d.info.span ∈ s.info.vars)
    (run : varSignature p d s = .ok (u, s')) : s.Run (signing file zone b).may s' ∧
      ∀ n ∈ nodesIn (fun t => .var d :: t.nodes) d.type, s'.Noted file n := by
  unfold varSignature at run
  cases written : d.type with
  | none =>
    rw [written] at run
    cases run
    exact ⟨.refl _, by simp [nodesIn]⟩
  | some te =>
    rw [written] at run inside
    obtain ⟨t, s₁, _, ready₁, run₁, noted, run⟩ := (typeExpr_covers signing_writes te
      fun n h => inside n (List.mem_cons_of_mem _ h)).first_ok ready run
    obtain ⟨_, _, read, run⟩ := bind_ok run
    cases read
    have stands₁ := (Regime.grows run₁).vars _ stands
    obtain ⟨id, found⟩ := mem_iff_found.mp stands₁
    rw [found] at run
    obtain ⟨known, kind⟩ := ready₁.formed.vars _ _ found
    have run₂ : s₁.Run (signing file zone b).may s' := setType_signs (by rw [kind]; rfl) (.inr kind) run
    refine ⟨run₁.trans run₂, fun n member => ?_⟩
    rcases List.mem_cons.mp member with rfl | member
    · cases run
      refine ⟨id, found, ?_⟩
      change ((SymbolTable.modifySymbol _ _ _).symbol id).type.isSome
      rw [SymbolTable.symbol_modifySymbol, if_pos ⟨rfl, known⟩]
      rfl
    · exact Regime.noted ready₁.formed run₂ (noted n member)

theorem itemSignature_signs {i : Item} (nodes : ∀ n ∈ i.nodes, n ∈ file.nodes)
    (inside : ∀ n ∈ i.early, n ∈ zone) (ready : (signing file zone b).Ready sc s)
    (stands : Item.Stands s i) (run : itemSignature p i s = .ok (u, s')) :
    s.Run (signing file zone b).may s' ∧ s'.Reached file State.Signed i.early i.funcs := by
  cases i with
  | var d =>
    obtain ⟨run, noted⟩ := varSignature_signs inside ready stands run
    exact ⟨run, .of_noted noted⟩
  | func f => exact funcSignature_signs (nodes _ List.mem_cons_self) inside ready stands run
  | enum d =>
    cases run
    exact ⟨.refl _, .nil⟩
  | inject info text =>
    cases run
    exact ⟨.refl _, .nil⟩

theorem baseSignature_covers (number : Nat) {base : TypeExpr}
    (inside : ∀ n ∈ base.nodes, n ∈ zone) :
    Covers (signing file zone true) sc (baseSignature p number base) base.nodes := by
  refine (typeExpr_covers signing_writes base inside).before fun t => ?_
  split
  · exact change_covers (.addBase number t) (fun _ => rfl) fun _ _ => ⟨trivial, rfl⟩
  · exact .pure

theorem TypeExpr.mem_nodesOf {ts : List TypeExpr} {n : Node} :
    n ∈ TypeExpr.nodesOf ts ↔ ∃ t ∈ ts, n ∈ t.nodes := by
  induction ts with
  | nil => simp [TypeExpr.nodesOf]
  | cons t ts ih => simp [TypeExpr.nodesOf, ih]

theorem items_sign {items : List Item} (nodes : ∀ n ∈ items.flatMap Item.nodes, n ∈ file.nodes)
    (inside : ∀ n ∈ items.flatMap Item.early, n ∈ zone) (ready : (signing file zone b).Ready sc s)
    (stands : ∀ i ∈ items, Item.Stands s i) (run : items.forM (itemSignature p) s = .ok (u, s')) :
    s.Run (signing file zone b).may s' ∧
      s'.Reached file State.Signed (items.flatMap Item.early) (items.flatMap Item.funcs) := by
  obtain ⟨run, signed⟩ := Regime.forM_run
    (fun (i : Item) s => s.Reached file State.Signed i.early i.funcs) ready
    (fun i _ _ _ formed run h => h.run (State.Signed.lasts _) formed run)
    (fun i member _ _ before ready turn => itemSignature_signs
      (fun n h => nodes n (List.mem_flatMap.mpr ⟨i, member, h⟩))
      (fun n h => inside n (List.mem_flatMap.mpr ⟨i, member, h⟩)) ready
      ((stands i member).mono (Regime.grows before)) turn) run
  exact ⟨run, .flatMap signed⟩

theorem classSignature_signs {bases : List TypeExpr} {items : List Item}
    (nodes : ∀ n ∈ items.flatMap Item.nodes, n ∈ file.nodes)
    (inside : ∀ n ∈ TypeExpr.nodesOf bases, n ∈ zone)
    (within : ∀ n ∈ items.flatMap Item.early, n ∈ zone)
    (ready : (signing file zone true).Ready p.scope s) (isClass : s.info.symbols.IsClass id)
    (stands : ∀ i ∈ items, Item.Stands s i)
    (run : classSignature p id bases items s = .ok (u, s')) :
    s.Run (signing file zone true).may s' ∧ s'.Reached file State.Signed
      (TypeExpr.nodesOf bases ++ items.flatMap Item.early) (items.flatMap Item.funcs) := by
  obtain ⟨_, _, read, run⟩ := bind_ok run
  cases read
  obtain ⟨full, number, type⟩ := isClass.type
  obtain ⟨m, members⟩ := isClass.members
  dsimp only at run
  rw [type, members] at run
  have bases_ : Covers (signing file zone true) p.scope (bases.forM (baseSignature p number))
      (bases.flatMap TypeExpr.nodes) := .forM fun b member =>
    baseSignature_covers number fun n h => inside n (TypeExpr.mem_nodesOf.mpr ⟨b, member, h⟩)
  obtain ⟨_, s₁, _, ready₁, run₁, written, run⟩ := bases_.first_ok ready run
  have ready₂ : (signing file zone true).Ready m s₁ := ⟨ready₁.formed, ready₁.relies,
    Nat.lt_of_lt_of_le (ready.formed.members id m members) (Regime.grows run₁).symbols.scopes⟩
  obtain ⟨run₂, signed⟩ := items_sign nodes within ready₂
    (fun i member => (stands i member).mono (Regime.grows run₁)) run
  refine ⟨run₁.trans run₂, .more (fun n member => ?_) signed⟩
  obtain ⟨b, listed, member⟩ := TypeExpr.mem_nodesOf.mp member
  exact Regime.noted ready₁.formed run₂ (written n (List.mem_flatMap.mpr ⟨b, listed, member⟩))

/-! ### Namespaces that are open already -/

theorem Decl.StandAll.anywhere {inner : ScopeId} : (ds : List Decl) →
    ds.any needsScope = false → Decl.StandAll s inner ds → (sc : ScopeId) → Decl.StandAll s sc ds
  | [], _, _, _ => trivial
  | d :: ds, idle, h, sc => by
    simp only [List.any_cons, Bool.or_eq_false_iff] at idle
    refine ⟨?_, Decl.StandAll.anywhere ds idle.2 h.2 sc⟩
    cases d with
    | item i => exact h.1
    | assume info name kind => exact h.1
    | includes info => trivial
    | scope info name ds => exact absurd idle.1 (by simp [needsScope])
    | cls info name bases items => exact absurd idle.1 (by simp [needsScope])
    | abstraction info name target fs => exact absurd idle.1 (by simp [needsScope])
    | refurbish info target fs => trivial
    | attributeDef info name params directives => trivial

theorem namespaceScope_joins {pos : Pos} {ds : List Decl}
    (found : s.info.symbols.lookupLocal? sc name = some id)
    (kind : (s.info.symbols.symbol id).kind = .scope) :
    namespaceScope sc name pos ds s = match (s.info.symbols.symbol id).members with
      | some m => .ok (m, s)
      | none => if ds.any needsScope then .error (.noScope name pos) else .ok (sc, s) := by
  unfold namespaceScope
  rw [show ∀ f : State → Resolver ScopeId, (get >>= f) s = f s s from fun _ => rfl, found, Option.map_some]
  cases symbol : s.info.symbols.symbol id with
  | mk name' kind' type home members origin unknown assumed static =>
    rw [symbol] at kind
    obtain rfl : kind' = .scope := kind
    cases members with
    | some m => rfl
    | none =>
      dsimp only
      split <;> rfl

theorem namespaceScope_stands {info : DeclInfo} {pos : Pos} {ds : List Decl} {m : ScopeId}
    (formed : s.Formed file) (inside : sc < s.info.symbols.scopes.size)
    (stands : Decl.Stands s sc (.scope info name ds))
    (run : namespaceScope sc name pos ds s = .ok (m, s')) :
    s' = s ∧ m < s.info.symbols.scopes.size ∧ Decl.StandAll s m ds := by
  obtain ⟨id, inner, found, kind, known, stand, members⟩ := stands
  rw [namespaceScope_joins found kind] at run
  cases own : (s.info.symbols.symbol id).members with
  | some m' =>
    rw [own] at run members
    cases run
    refine ⟨rfl, formed.members id m own, ?_⟩
    rcases members with same | idle
    · cases same
      exact stand
    · exact Decl.StandAll.anywhere ds idle stand m
  | none =>
    rw [own] at run
    dsimp only at run
    split at run
    · cases run
    · next idle =>
      cases run
      exact ⟨rfl, inside, Decl.StandAll.anywhere ds (Bool.not_eq_true _ ▸ idle) stand sc⟩

/-! ### The second pass -/

mutual

theorem signature_signs {p : Place} {u : Unit} {s s' : State}
    (ready : (signing file zone true).Ready p.scope s) : (d : Decl) → (∀ n ∈ d.nodes, n ∈ file.nodes) → (∀ n ∈ d.early, n ∈ zone) →
    (∀ f ∈ d.funcs, f ∈ file.funcs) → p.Attached file [d] → Decl.Stands s p.scope d → signature p d s = .ok (u, s') →
    s.Run (signing file zone true).may s' ∧ s'.Reached file State.Signed d.early d.funcs
  | .item i, nodes, inside, _, _, stands, run => by
    rw [Decl.nodes] at nodes
    exact itemSignature_signs nodes inside ready stands run
  | .scope info name ds, nodes, inside, listed, _, stands, run => by
    rw [Decl.nodes] at nodes
    obtain ⟨_, _, read, run⟩ := bind_ok run
    cases read
    obtain ⟨m, s₁, found, rest⟩ := bind_ok run
    obtain ⟨rfl, lt, stand⟩ := namespaceScope_stands ready.formed ready.inside stands found
    exact signatures_signs (p := p.within s₁.info.symbols name info.span.start m)
      ⟨ready.formed, ready.relies, lt⟩ ds (fun n h => nodes n (List.mem_cons_of_mem _ h)) inside listed
      (ready.relies.within (nodes _ List.mem_cons_self)) stand rest
  | .cls info name bases items, nodes, inside, _, _, stands, run => by
    rw [Decl.nodes] at nodes
    simp only [Decl.early, List.mem_append] at inside
    obtain ⟨_, _, read, run⟩ := bind_ok run
    cases read
    obtain ⟨id, found⟩ := Option.isSome_iff_exists.mp stands.1
    rw [found] at run
    exact classSignature_signs
      (fun n h => nodes n (List.mem_cons_of_mem _ (List.mem_append_right _ h)))
      (fun n h => inside n (.inl h)) (fun n h => inside n (.inr h)) ready
      (ready.formed.classSymbol? found) stands.2 run
  | .abstraction info name target fs, nodes, inside, _, _, stands, run => by
    rw [Decl.nodes] at nodes
    simp only [Decl.early, List.mem_append] at inside
    exact abstractionSignature_signs
      (fun n h => nodes n (List.mem_cons_of_mem _ (List.mem_append_right _ h)))
      (fun n h => inside n (.inl h)) (fun n h => inside n (.inr h)) ready stands.1 stands.2 run
  | .refurbish info target fs, nodes, inside, listed, attached, _, run => by
    rw [Decl.nodes] at nodes
    simp only [Decl.early, List.mem_append] at inside
    exact refurbishSignature_signs listed attached
      (fun n h => nodes n (List.mem_cons_of_mem _ (List.mem_append_right _ h)))
      (fun n h => inside n (.inl h)) (fun n h => inside n (.inr h)) ready run
  | .includes _ _ _ _, _, _, _, _, _, run | .assume _ _ _, _, _, _, _, _, run
  | .attributeDef _ _ _ _, _, _, _, _, _, run => by
    cases run
    exact ⟨.refl _, .nil⟩

theorem signatures_signs {p : Place} {u : Unit} {s s' : State}
    (ready : (signing file zone true).Ready p.scope s) : (ds : List Decl) → (∀ n ∈ Decl.nodesOf ds, n ∈ file.nodes) →
    (∀ n ∈ Decl.earlyOf ds, n ∈ zone) → (∀ f ∈ Decl.funcsOf ds, f ∈ file.funcs) →
    p.Attached file ds → Decl.StandAll s p.scope ds → signatures p ds s = .ok (u, s') →
    s.Run (signing file zone true).may s' ∧ s'.Reached file State.Signed (Decl.earlyOf ds) (Decl.funcsOf ds)
  | [], _, _, _, _, _, run => by
    cases run
    exact ⟨.refl _, .nil⟩
  | d :: ds, nodes, inside, listed, attached, stands, run => by
    simp only [Decl.nodesOf, Decl.earlyOf, Decl.funcsOf, List.mem_append] at nodes inside listed
    obtain ⟨_, s₁, here, run⟩ := bind_ok run
    obtain ⟨run₁, signed⟩ := signature_signs ready d (fun n h => nodes n (.inl h))
      (fun n h => inside n (.inl h)) (fun f h => listed f (.inl h)) attached.head stands.1 here
    have ready₁ := ready.run run₁
    obtain ⟨run₂, rest⟩ := signatures_signs ready₁ ds (fun n h => nodes n (.inr h))
      (fun n h => inside n (.inr h)) (fun f h => listed f (.inr h)) attached.tail
      (Decl.StandAll.mono ready.formed (Regime.grows run₁) ds ready.inside stands.2) run
    exact ⟨run₁.trans run₂, (signed.run (State.Signed.lasts _) ready₁.formed run₂).append rest⟩

end

end TastyLang.Resolution
