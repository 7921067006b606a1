import TastyLang.Proofs.Evaluation
import TastyLang.Proofs.Resolution.Completeness
import TastyLang.Proofs.Resolution.Frames
import TastyLang.Proofs.Ty.Inheritance
import TastyLang.Proofs.Resolution.Walks

/-!
# How resolution fails

All errors but one say which rule a declaration or an expression breaks (`ResolveError.Typed`). The
other one comes from a block that joins an assumed namespace and so has no scope: in the first pass if
the block declares something, in the second if it names a type that only a scope can know (`Stuck`). The
third pass enters the namespaces that the first one left, and fails with typed errors (`bodies_typed`).
-/

namespace TastyLang

/-- The error names the rule that is broken. -/
def ResolveError.Typed : ResolveError → Prop
  | .redeclared _ | .notForwarded _ _ _ | .type _ => True
  | .noScope _ _ => False

namespace Resolution

variable {α β : Type}

def Typed (m : Resolver α) : Prop := ∀ s e, m s = .error e → e.Typed

namespace Typed

variable {m : Resolver α}

@[grind ←]
theorem bind {f : α → Resolver β} (first : Typed m) (rest : ∀ a, Typed (f a)) :
    Typed (m >>= f) := by
  intro s e failed
  rcases bind_error failed with failed | ⟨a, s₁, -, failed⟩
  · exact first s e failed
  · exact rest a s₁ e failed

@[grind ←]
theorem pure (a : α) : Typed (pure a : Resolver α) := by
  intro s e failed
  cases failed

@[grind ←]
theorem get : Typed (get : Resolver State) := by
  intro s e failed
  cases failed

@[grind ←]
theorem modify (f : State → State) : Typed (modify f : Resolver Unit) := by
  intro s e failed
  cases failed

@[grind ←]
theorem modifyInfo (f : Info → Info) : Typed (modifyInfo f) := modify _

@[grind ←]
theorem fail {e : ResolveError} (typed : e.Typed) : Typed (fail e : Resolver α) := by
  intro s e' failed
  cases failed
  exact typed

@[grind ←]
theorem failType (cause : TypeError.Cause) (pos : Pos) :
    Typed (failType cause pos : Resolver α) := fail trivial

@[grind ←]
theorem map {f : α → β} (h : Typed m) : Typed (f <$> m) := by
  rw [map_eq_pure_bind]
  exact h.bind fun a => pure _

@[grind ←]
theorem discard (h : Typed m) : Typed (discard m) := h.map

@[grind ←]
theorem forM {f : α → Resolver Unit} {xs : List α} (each : ∀ x, Typed (f x)) :
    Typed (xs.forM f) := by
  induction xs with
  | nil => exact pure _
  | cons x xs ih => exact (each x).bind fun _ => ih

end Typed

/-! ### Steps on the state -/

theorem typed_composes : Composes @Typed where
  pure := Typed.pure
  bind := Typed.bind
  get := Typed.get
  failType := Typed.failType
  refuse _ _ _ := Typed.fail trivial
  alloc x := by
    unfold alloc
    grind
  note _ := Typed.modify _

@[grind ←]
theorem requireAssignable_typed (dst src : Ty) (pos : Pos) : Typed (requireAssignable dst src pos) :=
  typed_composes.requireAssignable dst src pos

@[grind ←]
theorem symbolOf_typed (id : SymbolId) : Typed (symbolOf id) := typed_composes.symbolOf id

@[grind ←]
theorem alloc_typed (x : Symbol) : Typed (alloc x) := Composes.alloc typed_composes x

@[grind ←]
theorem setType_typed (id : SymbolId) (t : Ty) : Typed (setType id t) :=
  Typed.modify _

@[grind ←]
theorem declare_typed (sc : ScopeId) (id : SymbolId) (pos : Pos) :
    Typed (declare sc id pos) := by
  refine Typed.get.bind fun s => ?_
  split
  · exact .modifyInfo _
  · exact .fail trivial

@[grind ←]
theorem newScope_typed (parent : Option ScopeId) (kind : ScopeKind) (owner : Option SymbolId) :
    Typed (newScope parent kind owner) := by
  unfold newScope
  grind

@[grind ←]
theorem newClass_typed (bases : List Ty) : Typed (newClass bases) := by
  unfold newClass
  grind

@[grind ←]
theorem addBase_typed (number : Nat) (base : Ty) : Typed (addBase number base) :=
  Typed.modifyInfo _

@[grind ←]
theorem named_typed (t : Ty) (binding : String) : Typed (named t binding) := by
  unfold named
  grind

@[grind ←]
theorem typeExpr_typed (p : Place) (te : TypeExpr) : Typed (typeExpr p te) :=
  Composes.typeExpr typed_composes te

/-! ### Statements -/

variable {p : Place}

section

variable (demand : ∀ span, Typed (p.demand span))
include demand

theorem ident_typed (span : Span) (name : String) : Typed (ident p span name) := by
  refine (Composes.bindName typed_composes name).bind fun id => ?_
  exact (Typed.modifyInfo _).bind fun _ => Composes.useType typed_composes demand span id

theorem expr_typed (e : Expr) : Typed (expr p e) :=
  Composes.expr typed_composes demand e fun span name _ => ident_typed demand span name

theorem varValue_typed (d : VarDecl) (id : SymbolId) : Typed (varValue p d id) :=
  Composes.varValue typed_composes demand (setType_typed id) fun span name _ => ident_typed demand span name

theorem localVar_typed (d : VarDecl) : Typed (localVar p d) := by
  refine (Composes.writtenType typed_composes d).bind fun type => (alloc_typed _).bind fun id => ?_
  refine (varValue_typed demand d id).bind fun _ => ?_
  exact (declare_typed _ _ _).bind fun _ => .modifyInfo _

omit demand in
theorem loopVar_typed (span : Span) (name : String) (t : Ty) : Typed (loopVar p span name t) := by
  unfold loopVar
  grind

end

variable {name : String}

theorem loop_typed {span : Span} {t : Ty} {body : Block}
    (inner : ∀ sc, Typed (block { p with scope := sc } body)) : Typed (do
      let inner ← loopVar p span name t
      block inner body) := by
  intro s e failed
  rcases bind_error failed with failed | ⟨place, s₁, ran, failed⟩
  · exact loopVar_typed span name t s e failed
  · obtain ⟨sc, s₂, -, ran⟩ := bind_ok ran
    obtain ⟨id, s₃, -, ran⟩ := bind_ok ran
    obtain ⟨_, s₄, -, ran⟩ := bind_ok ran
    obtain ⟨_, s₅, -, ran⟩ := bind_ok ran
    obtain ⟨rfl, -⟩ := pure_ok ran
    exact inner sc s₁ e failed

mutual

theorem stmt_typed {p : Place} (demand : ∀ span, Typed (p.demand span)) : (s : Stmt) →
    Typed (stmt p s)
  | .block b => block_typed demand b
  | .expr _ x => (expr_typed demand x).discard
  | .decl _ d => localVar_typed demand d
  | .branch _ _ cond yes no => by
    unfold stmt
    refine (expr_typed demand cond).discard.bind fun _ => (block_typed demand yes).bind fun _ => ?_
    cases no with
    | some s => exact stmt_typed demand s
    | none => exact .pure _
  | .loop _ _ cond body => by
    cases cond with
    | some c => exact (expr_typed demand c).discard.bind fun _ => block_typed demand body
    | none => exact block_typed demand body
  | .count span _ name low high step body => by
    refine (expr_typed demand low).bind fun l => (expr_typed demand high).bind fun h => ?_
    have rest : Typed (do
        let t ← countType p l h
        let inner ← loopVar p span name t
        block inner body) :=
      (typed_composes.countType l h).bind fun t =>
        loop_typed fun sc => block_typed (p := { p with scope := sc }) demand body
    cases step with
    | some s => exact (expr_typed demand s).discard.bind fun _ => rest
    | none => exact rest
  | .each _ _ _ items body =>
    (Composes.iterated typed_composes demand fun span name _ => ident_typed demand span name).bind fun t =>
      loop_typed fun sc => block_typed (p := { p with scope := sc }) demand body
  | .ret _ value implicit _ _ =>
    Composes.returned typed_composes demand (fun _ => .modify _) implicit fun span name _ =>
      ident_typed demand span name
  | .brk _ _ | .cont _ _ | .inject _ _ => .pure _

theorem block_typed {p : Place} (demand : ∀ span, Typed (p.demand span)) : (b : Block) →
    Typed (block p b)
  | .mk _ ss _ => (newScope_typed _ _ _).bind fun sc =>
    stmts_typed (p := { p with scope := sc }) demand ss

theorem stmts_typed {p : Place} (demand : ∀ span, Typed (p.demand span)) : (ss : List Stmt) →
    Typed (stmts p ss)
  | [] => .pure _
  | s :: ss => (stmt_typed demand s).bind fun _ => stmts_typed demand ss

end

/-! ### Functions -/

theorem bodyParam_typed (demand : ∀ span, Typed (p.demand span)) (q : Param) :
    Typed (bodyParam p q) := by
  refine Typed.get.bind fun s => ?_
  split
  · exact .pure _
  · refine (declare_typed _ _ _).bind fun _ => ?_
    split
    · refine (expr_typed demand _).bind fun t => ?_
      exact (symbolOf_typed _).bind fun _ => requireAssignable_typed _ _ _
    · exact .pure _

theorem funcBody_typed (demand : ∀ span, Typed (p.demand span)) (st : FuncState) :
    Typed (funcBody p st) := by
  have rest : Typed (do
      unless (← get).info.results.contains st.decl.info.span do
        let t ← inferResult p.table st (← get).returns
        modifyInfo fun i => { i with results := i.results.insert st.decl.info.span t }) := by
    refine Typed.get.bind fun s => ?_
    split
    · exact .pure _
    · refine Typed.get.bind fun s => ?_
      exact (typed_composes.inferResult p.table st s.returns).bind fun _ => .modifyInfo _
  refine (Typed.forM (bodyParam_typed demand)).bind fun _ => ?_
  split
  · exact (block_typed demand _).bind fun _ => rest
  · exact rest

theorem resolveFunc_typed (table : Table) (n : Nat) (span : Span) :
    Typed (resolveFunc table n span) := by
  induction n generalizing span with
  | zero => exact .pure _
  | succ n ih =>
    refine Typed.get.bind fun s => ?_
    split
    · exact .pure _
    · next st _ =>
      split
      · refine (Typed.modify _).bind fun _ => ?_
        have enter : Typed (enterFunc table (resolveFunc table n) st) := by
          refine Typed.get.bind fun s => (Typed.modify _).bind fun _ => ?_
          refine (newScope_typed _ _ _).bind fun sc => ?_
          exact (funcBody_typed (p := { table, scope := sc, fn := some st, demand := _ }) ih st).bind fun _ => .modify _
        exact enter.bind fun _ => .modify _
      · exact .pure _

theorem itemBody_typed (demand : ∀ span, Typed (p.demand span)) (i : Item) :
    Typed (itemBody p i) := by
  cases i with
  | var d =>
    refine Typed.get.bind fun s => ?_
    split
    · exact varValue_typed demand d _
    · exact .pure _
  | func d => exact demand _
  | enum d =>
    have each (sc : ScopeId) (v : Expr) : Typed (discard (expr { p with scope := sc } v)) :=
      (expr_typed (p := { p with scope := sc }) demand v).discard
    refine Typed.get.bind fun s => .forM fun m => ?_
    split
    · exact each _ _
    · exact .pure _
  | inject _ _ => exact .pure _

/-! ### Declarations -/

@[grind ←]
theorem declareOwner_typed (sc : ScopeId) (x : Symbol) (inner : ScopeKind) (pos : Pos) :
    Typed (declareOwner sc x inner pos) := by
  unfold declareOwner modifySymbol
  grind

@[grind ←]
theorem qualifiedName_typed (id : SymbolId) : Typed (qualifiedName id) := by
  unfold qualifiedName
  grind

theorem declareFunc_typed (sc : ScopeId) (f : FuncDecl) : Typed (declareFunc sc f) := by
  unfold declareFunc noteFunc
  grind

theorem declareItem_typed (sc : ScopeId) (i : Item) : Typed (declareItem sc i) := by
  cases i with
  | var d =>
    unfold declareItem declareVar
    grind
  | func f => exact declareFunc_typed sc f
  | enum d =>
    unfold declareItem declareEnum
    grind
  | inject info text => exact .pure _

theorem declareAssumed_typed (sc : ScopeId) (name : String) (kind : AssumeKind) (pos : Pos) :
    Typed (declareAssumed sc name kind pos) := by
  unfold declareAssumed assumedSymbol
  grind

/-! ### Signatures -/

theorem funcSignature_typed (f : FuncDecl) : Typed (funcSignature p f) := by
  have note : ∀ result : Option Ty, Typed (noteResult? f.info.span result) := by
    intro result
    cases result with
    | some t => exact Typed.modifyInfo fun i => { i with results := i.results.insert f.info.span t }
    | none => exact .pure _
  refine (Typed.forM fun q => ?_).bind fun _ => ?_
  · refine (typeExpr_typed p q.type).bind fun t => (alloc_typed _).bind fun _ => .modifyInfo _
  · split
    · exact (typeExpr_typed p _).map.bind note
    · dsimp only
      split
      · exact note (some .void)
      · exact note none

theorem addExtension_typed (e : Extension) : Typed (addExtension e) :=
  (Typed.modifyInfo _).bind fun _ => .modify _

theorem bindingFunc_typed (binding : String) (self : Ty) (f : FuncDecl) :
    Typed (bindingFunc p binding self f) := by
  refine (funcSignature_typed f).bind fun _ => ?_
  split
  · exact .modifyInfo _
  · exact (Typed.modifyInfo _).bind fun _ => addExtension_typed _

theorem abstractionSignature_typed (name : String) (target : TypeExpr) (fs : List FuncDecl) :
    Typed (abstractionSignature p name target fs) := by
  refine (typeExpr_typed p target).bind fun t => (Typed.modifyInfo _).bind fun _ => ?_
  refine (named_typed t name).bind fun self => Typed.get.bind fun s => ?_
  dsimp only
  split
  · exact .pure _
  · exact (setType_typed _ _).bind fun _ => .forM fun f => bindingFunc_typed name self f

/-- Only names that are not found where there is no scope make this fail without a typed error. -/
theorem refurbishSignature_fails {target : TypeExpr} {fs : List FuncDecl} {s : State}
    {e : ResolveError} (failed : refurbishSignature p target fs s = .error e) : e.Typed ∨
      ∃ name pos, p.bare = some (name, pos) ∧ e = .noScope name pos ∧
        ∃ word ∈ target.words ++ fs.flatMap (·.words), s.finds p.table word = false := by
  rcases bind_error failed with failed | ⟨_, s₁, -, failed⟩
  · unfold requireFound at failed
    cases bare : p.bare with
    | none =>
      rw [bare] at failed
      cases failed
    | some block =>
      rw [bare] at failed
      rcases bind_error failed with failed | ⟨_, _, read, failed⟩
      · cases failed
      cases read
      split at failed
      · cases failed
      · next unfound =>
        cases failed
        rw [Bool.not_eq_true, List.all_eq_false] at unfound
        obtain ⟨word, inside, unfound⟩ := unfound
        exact .inr ⟨_, _, rfl, rfl, word, inside, Bool.not_eq_true _ ▸ unfound⟩
  · have typed : Typed (typeExpr p target >>= fun t => fs.forM fun f => do
        noteFunc f { decl := f, scope := p.home }
        funcSignature p f
        let e : Extension :=
          ⟨target.text, f.name, extensionName target.text f.name, f.info.span, .reference t false⟩
        modify fun s => { s with refurbished := (t.text, f.name, e) :: s.refurbished }
        addExtension e) := by
      refine (typeExpr_typed p target).bind fun t => .forM fun f => (Typed.modify _).bind fun _ => ?_
      exact (funcSignature_typed f).bind fun _ => (Typed.modify _).bind fun _ => addExtension_typed _
    exact .inl (typed s₁ e failed)

theorem itemSignature_typed (i : Item) : Typed (itemSignature p i) := by
  cases i with
  | var d =>
    unfold itemSignature varSignature
    grind
  | func f => exact funcSignature_typed f
  | enum d => exact .pure _
  | inject _ _ => exact .pure _

theorem classSignature_typed (id : SymbolId) (bases : List TypeExpr) (items : List Item) :
    Typed (classSignature p id bases items) := by
  have inner : ∀ sc, Typed (items.forM (itemSignature { p with scope := sc })) :=
    fun sc => .forM itemSignature_typed
  have base : ∀ number t, Typed (baseSignature p number t) := by
    intro number t
    unfold baseSignature
    grind
  refine (symbolOf_typed id).bind fun sym => ?_
  split
  · exact (Typed.forM (base _)).bind fun _ => inner _
  · exact inner _

/-! ### Namespaces -/

variable {table : Table} {file : File} {s s' : State} {e : ResolveError} {ds : List Decl}
  {info : DeclInfo}

theorem namespaceScope_enters {sc : ScopeId} {pos : Pos}
    (stands : Decl.Stands s sc (.scope info name ds)) :
    namespaceScope sc name pos ds s ≠ .error e := by
  obtain ⟨id, inner, found, kind, -, -, members⟩ := stands
  rw [namespaceScope_joins found kind]
  rcases members with members | idle
  · rw [members]
    nofun
  · split
    · nofun
    · rw [if_neg (by simp [idle])]
      nofun

variable {e : ResolveError}

/-- A block that cannot be entered joins a namespace without members. -/
theorem namespaceScope_fails (failed : namespaceScope sc name pos ds s = .error e) : e.Typed ∨
      e = .noScope name pos ∧ ds.any needsScope = true ∧
        ∃ id, s.info.symbols.Bare sc id ∧ (s.info.symbols.symbol id).name = name := by
  have typed : Typed (do
      let made ← declareOwner sc { name, kind := .scope, origin := .other pos } .scope pos
      setType made.1 (.scope (← qualifiedName made.1))
      return made.2) := by
    refine (declareOwner_typed _ _ _ _).bind fun made => Typed.bind ?_ fun _ => ?_
    · exact Typed.get.bind fun _ => .pure _
    · exact (setType_typed _ _).bind fun _ => .pure _
  rcases bind_error failed with failed | ⟨_, _, read, failed⟩
  · cases failed
  cases read
  dsimp only at failed
  cases found : s.info.symbols.lookupLocal? sc name with
  | none =>
    rw [found] at failed
    exact .inl (typed s e failed)
  | some id =>
    obtain ⟨member, named⟩ := SymbolTable.lookupLocal?_mem found
    cases symbol : s.info.symbols.symbol id with
    | mk name' kind type home members origin unknown assumed static =>
      rw [found, Option.map_some, symbol] at failed
      cases kind with
      | scope =>
        cases members with
        | some m => cases failed
        | none =>
          dsimp only at failed
          split at failed
          · next needs =>
            cases failed
            exact .inr ⟨rfl, needs, id, ⟨member, by rw [symbol], by rw [symbol]⟩, symbol ▸ named⟩
          · cases failed
      | _ => exact .inl (typed s e failed)

/-! ### How the first pass fails -/

/-- The error is typed, or a block that needs a scope joins a name that was assumed: before these
openings, or by one of them. -/
def Unopened (os new : List Opening) (e : ResolveError) : Prop :=
  e.Typed ∨ ∃ π name pos ds before after, e = .noScope name pos ∧
    new = before ++ .block π name pos ds :: after ∧ .assumed π name ∈ os ++ before ∧
    ds.any needsScope = true

theorem Unopened.cons {new : List Opening} {o : Opening}
    (h : Unopened (os ++ [o]) new e) : Unopened os (o :: new) e := by
  refine h.imp_right ?_
  rintro ⟨π, name, pos, ds, before, after, rfl, rfl, earlier, needs⟩
  refine ⟨π, name, pos, ds, o :: before, after, rfl, rfl, ?_, needs⟩
  rwa [List.append_cons]

theorem Unopened.left {new more : List Opening} (h : Unopened os new e) :
    Unopened os (new ++ more) e := by
  refine h.imp_right ?_
  rintro ⟨π, name, pos, ds, before, after, rfl, rfl, earlier, needs⟩
  exact ⟨π, name, pos, ds, before, after ++ more, rfl, by simp, earlier, needs⟩

theorem Unopened.right {new more : List Opening}
    (h : Unopened (os ++ new) more e) : Unopened os (new ++ more) e := by
  refine h.imp_right ?_
  rintro ⟨π, name, pos, ds, before, after, rfl, rfl, earlier, needs⟩
  refine ⟨π, name, pos, ds, new ++ before, after, rfl, by simp, ?_, needs⟩
  rwa [← List.append_assoc]

mutual

theorem declareDecl_fails {s : State} {c : Chart} {sc : ScopeId} {π : Path} {os : List Opening}
    {e : ResolveError} (charted : s.Charted c) (here : s.info.symbols.At sc π)
    (bares : s.info.symbols.Bares os) : (d : Decl) → declareDecl sc d s = .error e →
    Unopened os (d.openings π) e
  | .item i, failed => .inl (declareItem_typed sc i s e failed)
  | .assume info name kind, failed => .inl (declareAssumed_typed sc name kind _ s e failed)
  | .scope info name ds, failed => by
    rcases bind_error failed with closed | ⟨m, s₁, found, later⟩
    · refine (namespaceScope_fails closed).imp_right ?_
      rintro ⟨rfl, needs, id, bare, rfl⟩
      obtain ⟨π', there, earlier⟩ := bares.listed sc id bare
      obtain rfl := here.path_unique charted.table.rooted there
      exact ⟨π, _, _, ds, [], _, rfl, rfl, by rwa [List.append_nil], needs⟩
    · obtain ⟨first, placed⟩ := namespaceScope_fills charted here found
      have bares₁ : s₁.info.symbols.Bares (os ++ [.block π name info.span.start ds]) :=
        first.block charted here bares placed
      rw [Decl.openings]
      rcases placed with inside | ⟨outside, idle, -⟩
      · exact (declareDecls_fails first.charted inside bares₁ ds later).cons
      · have rest := declareDecls_fails first.charted outside bares₁ ds later
        rw [Decl.openingsOf_idle idle] at rest ⊢
        exact rest.cons
  | .cls info name bases items, failed => by
    have typed : Typed (declareDecl sc (.cls info name bases items)) := by
      refine (declareOwner_typed _ _ _ _).bind fun made => (qualifiedName_typed _).bind fun full => ?_
      refine (newClass_typed _).bind fun number => (setType_typed _ _).bind fun _ => ?_
      refine (Typed.modify _).bind fun _ => (Typed.modifyInfo _).bind fun _ => ?_
      exact .forM (declareItem_typed made.2)
    exact .inl (typed s e failed)
  | .abstraction info name target fs, failed => by
    have typed : Typed (declareDecl sc (.abstraction info name target fs)) := by
      refine (declareOwner_typed _ _ _ _).bind fun made => ?_
      exact (Typed.forM (declareFunc_typed made.2)).bind fun _ => .modifyInfo _
    exact .inl (typed s e failed)
  | .attributeDef info name params directives, failed => by
    have typed : Typed (declareDecl sc (.attributeDef info name params directives)) :=
      (alloc_typed _).bind fun id => declare_typed sc id _
    exact .inl (typed s e failed)
  | .includes _ _ _ _, failed | .refurbish _ _ _, failed => by cases failed

theorem declareDecls_fails {s : State} {c : Chart} {sc : ScopeId} {π : Path} {os : List Opening}
    {e : ResolveError} (charted : s.Charted c) (here : s.info.symbols.At sc π)
    (bares : s.info.symbols.Bares os) : (ds : List Decl) → declareDecls sc ds s = .error e →
    Unopened os (Decl.openingsOf π ds) e
  | [], failed => by cases failed
  | d :: ds, failed => by
    rcases bind_error failed with here' | ⟨_, s₁, first, later⟩
    · exact (declareDecl_fails charted here bares d here').left
    · have charting := declareDecl_charts charted here d first
      have bares₁ := declareDecl_bares charted here bares d first
      exact (declareDecls_fails charting.charted (charting.at charted here) bares₁ ds later).right

end

/-! ### How the second pass fails -/

/-- The declarations of a block cannot do without a scope: one of them declares a name there, or it
adds functions to a type and names a type that only a scope can know. -/
def NeedScope (table : Table) (file : File) (ds : List Decl) : Prop :=
  ds.any needsScope = true ∨ ∃ info target fs, .refurbish info target fs ∈ ds ∧
    ∃ word ∈ target.words ++ fs.flatMap FuncDecl.words,
      table.primitive? word = none ∧ ¬ file.Assumes word

/-- What the first pass leaves for the second one, which does not change it. -/
structure State.Based (file : File) (os : List Opening) (c : Chart) (base : State) : Prop where
  formed : base.Formed file
  bared : base.Bared file
  charted : base.Charted c
  bares : base.info.symbols.Bares os
  assumed : ∀ full, file.Assumes full → ∃ id, (full, id) ∈ base.assumed

/-- The error is typed, or it comes from a block that joins an assumed name and needs a scope. -/
def Stuck (table : Table) (file : File) (os : List Opening) (e : ResolveError) : Prop :=
  e.Typed ∨ ∃ π name pos ds, e = .noScope name pos ∧ Opening.Joins os π name pos ds ∧
    NeedScope table file ds

/-- Where the second pass goes over a block without a scope, the block joins an assumed name. -/
def Place.Joins (os : List Opening) (p : Place) (ds : List Decl) : Prop :=
  ∀ name pos, p.bare = some (name, pos) →
    ∃ π whole, Opening.Joins os π name pos whole ∧ ds ⊆ whole

variable {base : State} {zone : List Node} {os : List Opening} {c : Chart} {π : Path}

theorem namespaceScope_again {sc : ScopeId} {pos : Pos} {m : ScopeId} (formed : base.Formed file)
    (steps : base.Run (signing file zone true).may s) (inside : sc < base.info.symbols.scopes.size)
    (stands : Decl.Stands base sc (.scope info name ds))
    (run : namespaceScope sc name pos ds s = .ok (m, s')) :
    s' = s ∧ namespaceScope sc name pos ds base = .ok (m, base) ∧
      s.info.symbols.isBare sc name = base.info.symbols.isBare sc name := by
  obtain ⟨id, inner, found, kind, -⟩ := stands
  obtain ⟨found', later⟩ := lookupLocal?_mono formed (Regime.grows steps) inside found
  have known := (formed.orders sc id (SymbolTable.lookupLocal?_mem found).1).1
  obtain ⟨t, same⟩ := (signing_frames steps).symbol id known
  have members : (s.info.symbols.symbol id).members = (base.info.symbols.symbol id).members := by
    rw [same]
  rw [namespaceScope_joins found' (later.kind.trans kind), members] at run
  rw [namespaceScope_joins found kind, ← and_assoc]
  refine ⟨?_, by simp [SymbolTable.isBare, found, found', same]⟩
  cases own : (base.info.symbols.symbol id).members with
  | some m' =>
    rw [own] at run
    cases run
    exact ⟨rfl, rfl⟩
  | none =>
    rw [own] at run
    dsimp only at run ⊢
    split at run
    · cases run
    · next idle =>
      cases run
      exact ⟨rfl, if_neg idle⟩

theorem Place.Joins.within {t : SymbolTable} {m : ScopeId} (bares : base.info.symbols.Bares os)
    (here : base.info.symbols.At p.scope π) (opened : .block π name info.span.start ds ∈ os)
    (same : t.isBare p.scope name = base.info.symbols.isBare p.scope name) :
    (p.within t name info.span.start m).Joins os ds := by
  intro name' pos bare
  simp only [Place.within, same] at bare
  split at bare
  · next isBare =>
    cases bare
    exact ⟨π, ds, bares.joins here opened isBare, List.Subset.refl _⟩
  · cases bare

theorem Place.Joins.part {ds ds' : List Decl} (joins : p.Joins os ds) (fewer : ds' ⊆ ds) :
    p.Joins os ds' := by
  intro name pos bare
  obtain ⟨π, whole, joined, inside⟩ := joins name pos bare
  exact ⟨π, whole, joined, fun d member => inside (fewer member)⟩

theorem State.Based.unfound (based : base.Based file os c) (grown : base.Grows s) {word : String}
    (unfound : s.finds table word = false) : table.primitive? word = none ∧ ¬ file.Assumes word := by
  simp only [State.finds, Bool.or_eq_false_iff, Option.isSome_eq_false_iff,
    Option.isNone_iff_eq_none] at unfound
  refine ⟨unfound.1, fun assumes => ?_⟩
  obtain ⟨id, listed⟩ := based.assumed word assumes
  have := List.lookup_eq_none_iff.mp unfound.2 (word, id) (grown.assumed.subset listed)
  simp at this

mutual

/-- The second pass over declarations that stand fails with typed errors, or it is stuck at a block. -/
theorem signature_fails {p : Place} {s : State} {π : Path} (based : base.Based file os c)
    (steps : base.Run (signing file zone true).may s) (here : base.info.symbols.At p.scope π) :
    (d : Decl) → (∀ n ∈ d.nodes, n ∈ file.nodes) → (∀ n ∈ d.early, n ∈ zone) →
    (∀ f ∈ d.funcs, f ∈ file.funcs) → d.openings π ⊆ os → p.Joins os [d] →
    Decl.Stands base p.scope d → signature p d s = .error e → Stuck p.table file os e
  | .item i, _, _, _, _, _, _, failed => .inl (itemSignature_typed i s e failed)
  | .scope info name ds, nodes, zoned, listed, opened, _, stands, failed => by
    have inside := here.known based.charted.table.rooted
    rw [Decl.nodes] at nodes
    rw [Decl.openings, List.cons_subset] at opened
    rcases bind_error failed with failed | ⟨_, _, read, failed⟩
    · cases failed
    cases read
    rcases bind_error failed with closed | ⟨m, s₁, found, later⟩
    · have standing := Decl.Stands.mono based.formed (Regime.grows steps) _ inside stands
      exact absurd closed (namespaceScope_enters standing)
    obtain ⟨rfl, again, bare⟩ := namespaceScope_again based.formed steps inside stands found
    obtain ⟨-, -, stand⟩ := namespaceScope_stands based.formed inside stands again
    obtain ⟨-, placed⟩ := namespaceScope_fills based.charted here again
    have rest : ∀ {π' : Path}, base.info.symbols.At m π' → Decl.openingsOf π' ds ⊆ os →
        Stuck p.table file os e := fun inner fewer =>
      signatures_fails (p := p.within s₁.info.symbols name info.span.start m) based steps inner ds
        (fun n h => nodes n (List.mem_cons_of_mem _ h)) zoned listed fewer
        (.within based.bares here opened.1 bare)
        (((Regime.Ready.run ⟨based.formed, based.bared, inside⟩ steps).relies).within
          (nodes _ List.mem_cons_self)) stand later
    rcases placed with inner | ⟨outer, idle, -⟩
    · exact rest inner opened.2
    · exact rest outer (by rw [Decl.openingsOf_idle idle]; exact List.nil_subset _)
  | .cls info name bases items, _, _, _, _, _, _, failed => by
    have typed : Typed (signature p (.cls info name bases items)) := by
      refine Typed.get.bind fun s => ?_
      split
      · exact classSignature_typed _ bases items
      · exact .pure _
    exact .inl (typed s e failed)
  | .abstraction _ name target fs, _, _, _, _, _, _, failed =>
    .inl (abstractionSignature_typed name target fs s e failed)
  | .refurbish info target fs, _, _, _, _, joins, _, failed => by
    rcases refurbishSignature_fails failed with typed | ⟨name, pos, bare, rfl, word, inside, unfound⟩
    · exact .inl typed
    obtain ⟨π', whole, joined, within⟩ := joins name pos bare
    refine .inr ⟨π', name, pos, whole, rfl, joined, .inr ⟨info, target, fs, ?_, word, inside, ?_⟩⟩
    · exact within List.mem_cons_self
    · exact based.unfound (Regime.grows steps) unfound
  | .includes _ _ _ _, _, _, _, _, _, _, failed | .assume _ _ _, _, _, _, _, _, _, failed
  | .attributeDef _ _ _ _, _, _, _, _, _, _, failed => by cases failed

theorem signatures_fails {p : Place} {s : State} {π : Path} (based : base.Based file os c)
    (steps : base.Run (signing file zone true).may s) (here : base.info.symbols.At p.scope π) :
    (ds : List Decl) → (∀ n ∈ Decl.nodesOf ds, n ∈ file.nodes) → (∀ n ∈ Decl.earlyOf ds, n ∈ zone) →
    (∀ f ∈ Decl.funcsOf ds, f ∈ file.funcs) → Decl.openingsOf π ds ⊆ os → p.Joins os ds →
    p.Attached file ds → Decl.StandAll base p.scope ds → signatures p ds s = .error e →
    Stuck p.table file os e
  | [], _, _, _, _, _, _, _, failed => by cases failed
  | d :: ds, nodes, zoned, listed, opened, joins, attached, stands, failed => by
    simp only [Decl.nodesOf, Decl.earlyOf, Decl.funcsOf, List.mem_append] at nodes zoned listed
    rw [Decl.openingsOf, List.append_subset] at opened
    have inside := here.known based.charted.table.rooted
    rcases bind_error failed with failed | ⟨_, s₁, ran, failed⟩
    · exact signature_fails based steps here d (fun n h => nodes n (.inl h))
        (fun n h => zoned n (.inl h)) (fun f h => listed f (.inl h)) opened.1
        (joins.part (List.cons_subset_cons d (List.nil_subset ds))) stands.1 failed
    · obtain ⟨run₁, -⟩ := signature_signs
        (Regime.Ready.run ⟨based.formed, based.bared, inside⟩ steps) d (fun n h => nodes n (.inl h))
        (fun n h => zoned n (.inl h)) (fun f h => listed f (.inl h)) attached.head
        (Decl.Stands.mono based.formed (Regime.grows steps) d inside stands.1) ran
      exact signatures_fails based (steps.trans run₁) here ds (fun n h => nodes n (.inr h))
        (fun n h => zoned n (.inr h)) (fun f h => listed f (.inr h)) opened.2
        (joins.part (List.subset_cons_self d ds)) attached.tail stands.2 failed

end

/-! ### How the third pass fails -/

mutual

theorem body_typed {p : Place} (demand : ∀ span, Typed (p.demand span)) (place : p.Enters table file)
    (finds : p.Finds) {s : State} : (d : Decl) → Decl.Stands s p.scope d →
    (∀ n ∈ d.late, n ∈ file.late) → s.Open table file p.scope [] d.values → body p d s = .error e →
    e.Typed
  | .item i, _, _, _, failed => itemBody_typed demand i s e failed
  | .scope _ _ ds, stands, inside, opened, failed => by
    rcases bind_error failed with closed | ⟨m, s₁, found, later⟩
    · exact absurd closed (namespaceScope_enters stands)
    · obtain ⟨rfl, lt, stand⟩ :=
        namespaceScope_stands opened.ready.formed opened.ready.inside stands found
      exact bodies_typed (p := { p with scope := m }) demand (place.scoped m) finds ds stand inside
        (opened.scoped lt) later
  | .cls info name bases items, _, _, _, failed => by
    have typed : Typed (body p (.cls info name bases items)) := by
      refine Typed.get.bind fun s => ?_
      split
      · exact (symbolOf_typed _).bind fun sym => .forM fun i =>
          itemBody_typed (p := { p with scope := sym.members.getD p.scope }) demand i
      · exact .pure _
    exact typed s e failed
  | .abstraction _ _ _ fs, _, _, _, failed | .refurbish _ _ fs, _, _, _, failed =>
    Typed.forM (fun f : FuncDecl => demand f.info.span) s e failed
  | .includes _ _ _ _, _, _, _, failed | .assume _ _ _, _, _, _, failed
  | .attributeDef _ _ _ _, _, _, _, failed => by cases failed

theorem bodies_typed {p : Place} (demand : ∀ span, Typed (p.demand span)) (place : p.Enters table file)
    (finds : p.Finds) {s : State} : (ds : List Decl) → Decl.StandAll s p.scope ds →
    (∀ n ∈ Decl.lateOf ds, n ∈ file.late) → s.Open table file p.scope [] (Decl.valuesOf ds) →
    bodies p ds s = .error e → e.Typed
  | [], _, _, _, failed => by cases failed
  | d :: ds, stands, inside, opened, failed => by
    have first := fun n h => inside n (List.mem_append_left _ h)
    rcases bind_error failed with failed | ⟨_, s₁, ran, failed⟩
    · exact body_typed demand place finds d stands.1 first opened.first failed
    · obtain ⟨steps, -⟩ := body_visits place finds d stands.1 first opened.first ran
      exact bodies_typed demand place finds ds
        (Decl.StandAll.mono opened.ready.formed (Regime.grows steps.reaches.run) _ opened.ready.inside
          stands.2)
        (fun n h => inside n (List.mem_append_right _ h)) (opened.second steps) failed

end

theorem passes_fail (zoned : file.Zoned) (apart : Apart file)
    (failed : passes table file {} = .error e) : Stuck table file file.openings e := by
  have inside : ∀ n ∈ Decl.nodesOf file.decls, n ∈ file.nodes := fun n h => List.mem_cons_of_mem _ h
  rcases bind_error failed with failed | ⟨_, s₁, declared, failed⟩
  · refine (declareDecls_fails State.charted_initial .root bares_initial file.decls failed).imp_right ?_
    rintro ⟨π, n, pos, ds, before, after, rfl, same, earlier, needs⟩
    exact ⟨π, n, pos, ds, rfl, ⟨before, after, same, earlier⟩, .inl needs⟩
  obtain ⟨first, stand, -⟩ := declareDecls_leads (State.formed_initial file) Nat.zero_lt_one
    file.decls inside (fun _ h => h) (fun _ h => h) declared
  rcases bind_error failed with failed | ⟨_, s₂, signed, failed⟩
  · have based := State.Based.mk first.formed (declareDecls_bared inside declared)
      (declareDecls_charts State.charted_initial .root file.decls declared).charted
      (declareDecls_bares State.charted_initial .root bares_initial file.decls declared)
      fun full known => Decl.StandAll.assumes known.1 file.decls stand known.2
    exact signatures_fails (p := outermost table) based (.refl s₁) .root file.decls inside
      (fun _ h => h) (fun _ h => h) (List.Subset.refl _) (fun _ _ bare => by cases bare)
      (outermost_attached table file.decls) stand failed
  rcases bind_error failed with failed | ⟨_, _, read, failed⟩
  · cases failed
  cases read
  have prepared := signatures_prepared (.refl _) declared signed
  exact .inl (bodies_typed (resolveFunc_typed table _) (outermost_enters apart _)
    (fun f s s' => resolveFunc_finds) file.decls
    (Decl.StandAll.mono first.formed (Regime.grows prepared.second) file.decls
      first.formed.root stand)
    (fun _ h => h) (prepared.open (.refl _) zoned) failed)

/-! ### Blocks that stand -/

mutual

theorem Decl.Stands.opens {sc : ScopeId} {π π' : Path} {name : String} {pos : Pos}
    {ds : List Decl} (here : s.info.symbols.At sc π) : (d : Decl) → Decl.Stands s sc d →
    .block π' name pos ds ∈ d.openings π →
    ∃ sc' id, s.info.symbols.At sc' π' ∧ s.info.symbols.lookupLocal? sc' name = some id ∧
      (s.info.symbols.symbol id).kind = .scope ∧
      ((∃ m, (s.info.symbols.symbol id).members = some m) ∨ ds.any needsScope = false)
  | .scope info name' ds', stands, opened => by
    obtain ⟨id, inner, found, kind, -, stand, members⟩ := stands
    rcases List.mem_cons.mp opened with own | nested
    · cases own
      exact ⟨sc, id, here, found, kind, members.imp_left fun same => ⟨inner, same⟩⟩
    · rcases members with same | idle
      · exact Decl.StandAll.opens (.inner here found same) ds' stand nested
      · rw [Decl.openingsOf_idle idle] at nested
        cases nested
  | .assume _ _ .scope, _, opened => by
    rw [Decl.openings] at opened
    split at opened <;> simp at opened
  | .assume _ _ .cls, _, opened | .assume _ _ .func, _, opened | .assume _ _ .var, _, opened
  | .item _, _, opened | .includes _ _ _ _, _, opened | .cls _ _ _ _, _, opened
  | .abstraction _ _ _ _, _, opened | .refurbish _ _ _, _, opened
  | .attributeDef _ _ _ _, _, opened => by cases opened

theorem Decl.StandAll.opens {sc : ScopeId} {π π' : Path} {name : String} {pos : Pos}
    {ds : List Decl} (here : s.info.symbols.At sc π) : (ds' : List Decl) →
    Decl.StandAll s sc ds' → .block π' name pos ds ∈ Decl.openingsOf π ds' →
    ∃ sc' id, s.info.symbols.At sc' π' ∧ s.info.symbols.lookupLocal? sc' name = some id ∧
      (s.info.symbols.symbol id).kind = .scope ∧
      ((∃ m, (s.info.symbols.symbol id).members = some m) ∨ ds.any needsScope = false)
  | d :: ds', stands, opened => by
    rcases List.mem_append.mp opened with first | rest
    · exact Decl.Stands.opens here d stands.1 first
    · exact Decl.StandAll.opens here ds' stands.2 rest

end

end Resolution

open Resolution

/-! ### Files -/

/-- What a block of a namespace needs of a file that is resolved: its symbol is found in the scope at
its path, everything that it declares is found at its own path, and every function in it has its
result. The symbol has members unless the name was assumed, and then the block declares nothing. -/
structure Info.Opens (info : Info) (os : List Opening) (π : Path) (name : String) (ds : List Decl) :
    Prop where
  scope : ∃ sc id, info.symbols.At sc π ∧ info.symbols.lookupLocal? sc name = some id ∧
    (info.symbols.symbol id).kind = .scope ∧
    (.assumed π name ∉ os → ∃ m, (info.symbols.symbol id).members = some m)
  declared : ∀ l ∈ Decl.landmarksOf (name :: π) ds,
    ∃ sc id, info.symbols.At sc l.path ∧ info.symbols.lookupLocal? sc l.name = some id
  resolved : ∀ f ∈ Decl.funcsOf ds, f.info.span ∈ info.results
  assumed : .assumed π name ∈ os → Decl.landmarksOf (name :: π) ds = []

/-- What is known of a file after its first two passes, which give the classes their bases. -/
def File.outline (file : File) (table : Table) : Except ResolveError Info := do
  let (_, s) ← (do
    declareDecls SymbolTable.global file.decls
    signatures (outermost table) file.decls : Resolver Unit) {}
  return s.info

theorem Resolution.Passed.outline {table : Table} {file : File} {s₁ s₂ s : State}
    (passed : Passed table file file.decls s₁ s₂ s) :
    ∃ info, file.outline table = .ok info ∧ s.info.hierarchy = info.hierarchy := by
  refine ⟨s₂.info, ?_, (resolving_frames passed.third).1⟩
  have run : (do
      declareDecls SymbolTable.global file.decls
      signatures (outermost table) file.decls : Resolver Unit) {} = .ok ((), s₂) := by
    change Except.bind (declareDecls SymbolTable.global file.decls {}) _ = _
    rw [passed.declared]
    exact passed.signed
  rw [File.outline, run]
  rfl

/-- Where no class extends itself, resolution asks the classes only what has an answer. Every block of a
namespace has a scope for what it declares, or the file fails with a typed error, unless a block that needs a
scope joins a name that was assumed before. -/
theorem File.resolve_opens {table : Table} {name src : String} {file : File}
    (read : File.read table name src = .ok file)
    (acyclic : ∀ info, file.outline table = .ok info →
      ∀ t, ¬ Relation.TransGen info.hierarchy.Base t t) :
    (∀ info, file.outline table = .ok info → info.hierarchy.Settles) ∧
    match file.resolve table with
    | .ok info => (∃ known, file.outline table = .ok known ∧ info.hierarchy = known.hierarchy) ∧
      ∀ π n pos ds, .block π n pos ds ∈ file.openings → info.Opens file.openings π n ds
    | .error e => e.Typed ∨ ∃ π n pos ds, e = .noScope n pos ∧
      Opening.Joins file.openings π n pos ds ∧ NeedScope table file ds := by
  refine ⟨fun info known => Hierarchy.settles_of_acyclic (acyclic info known), ?_⟩
  cases resolved : file.resolve table with
  | error e =>
    obtain ⟨p, q, lies⟩ := File.read_lies read
    rcases except_bind_error resolved with failed | ⟨_, -, failed⟩
    · exact passes_fail (File.read_zoned read) (FuncsLie.listed lies.funcs).apart failed
    · cases failed
  | ok info =>
    obtain ⟨s₁, s₂, s, passed, rfl⟩ := File.read_passed read resolved
    refine ⟨passed.outline, fun π n pos ds opened => ?_⟩
    have charted := (declareDecls_charts State.charted_initial .root file.decls passed.declared).charted
    have rooted := charted.table.rooted
    have bares₁ := declareDecls_bares State.charted_initial .root bares_initial file.decls passed.declared
    have grown := ((Regime.grows passed.second).trans (Regime.grows passed.third)).symbols
    obtain ⟨sc, id, here, found, kind, members⟩ := Decl.StandAll.opens .root _ passed.stand opened
    have later := grown.symbol id (rooted.known sc id (SymbolTable.lookupLocal?_mem found).1)
    -- a namespace that was assumed has no members, so this block needs none
    have idle : .assumed π n ∈ file.openings → ds.any needsScope = false := by
      intro listed
      obtain ⟨sc', id', there, found', -, -, bare⟩ := bares₁.found π n listed
      obtain rfl := here.scope_unique there
      obtain rfl := Option.some.inj (found.symm.trans found')
      refine members.resolve_left ?_
      rintro ⟨m, some⟩
      rw [bare] at some
      cases some
    refine ⟨⟨sc, id, here.mono rooted grown, ?_, later.kind.trans kind, fun unlisted => ?_⟩,
      fun l listed => ?_, fun f listed => ?_, fun listed => ?_⟩
    · exact grown.lookupLocal? (here.known rooted) (rooted.known sc) found
    · cases same : (s₁.info.symbols.symbol id).members with
      | some m => exact ⟨m, later.members m same⟩
      | none =>
        obtain ⟨member, named⟩ := SymbolTable.lookupLocal?_mem found
        obtain ⟨π', there, listed⟩ := bares₁.listed sc id ⟨member, kind, same⟩
        rw [← here.path_unique rooted there, named] at listed
        exact absurd listed unlisted
    · obtain ⟨c, i, there, found⟩ := charted.table.found l
        ((Decl.openingsOf_parts file.decls opened).1 listed)
      refine ⟨c, i, there.mono rooted grown, ?_⟩
      exact grown.lookupLocal? (there.known rooted) (rooted.known c) found
    · exact (passed.finished f ((Decl.openingsOf_parts file.decls opened).2 listed)).result
    · exact (Decl.landmarksOf_idle (idle listed) _).1

/-- A text that opens a namespace twice, and that opens one that it assumes, to add a function. -/
def reopenedText : String := "namespace A \x7b
  class C \x7b\x7d
\x7d
assume B is namespace;
namespace A \x7b
  class D extends C \x7b\x7d
\x7d
namespace B \x7b
  refurbish int \x7b
    fn f() -> int \x7b
      return self;
    \x7d
  \x7d
\x7d
"

theorem File.resolve_opens_of_reopened :
    ∃ file info, File.read Table.default "main.tasty" reopenedText = .ok file ∧
      file.resolve Table.default = .ok info ∧
      (∀ known, file.outline Table.default = .ok known →
        ∀ t, ¬ Relation.TransGen known.hierarchy.Base t t) ∧
      file.openings.map Opening.label =
        [([], "A", true), ([], "B", false), ([], "A", true), ([], "B", true)] ∧
      ∀ π n pos ds, .block π n pos ds ∈ file.openings → info.Opens file.openings π n ds := by
  have found : (resolved? Table.default "main.tasty" reopenedText).any (fun r =>
      r.1.openings.map Opening.label =
        [([], "A", true), ([], "B", false), ([], "A", true), ([], "B", true)] &&
      r.2.hierarchy.isOrdered) = true := by
    rw [resolved?, reopenedText, File.read_ofList]
    decide +kernel
  obtain ⟨⟨file, info⟩, steps, here⟩ := (Option.any_eq_true _ _).mp found
  obtain ⟨labels, ordered⟩ := Bool.and_eq_true_iff.mp here
  obtain ⟨read, resolved⟩ := resolved?_some steps
  have acyclic : ∀ known, file.outline Table.default = .ok known →
      ∀ t, ¬ Relation.TransGen known.hierarchy.Base t t := by
    intro known outlined
    obtain ⟨s₁, s₂, s, passed, rfl⟩ := File.read_passed read resolved
    obtain ⟨known', outlined', same⟩ := passed.outline
    obtain rfl := Except.ok.inj (outlined.symm.trans outlined')
    exact same ▸ Hierarchy.acyclic_of_isOrdered ordered
  have opens := (File.resolve_opens read acyclic).2
  rw [resolved] at opens
  exact ⟨file, info, read, resolved, acyclic, of_decide_eq_true labels, opens.2⟩

/-- A text that declares a variable in a namespace that it assumes. -/
def assumedText : String := "assume N is namespace;
namespace N \x7b
  copy x = 1;
\x7d
"

/-- Whether a namespace of that name has no scope. -/
def lacksScope (name : String) : Except ResolveError Info → Bool
  | .error (.noScope name' _) => name' == name
  | _ => false

/-- A block that joins an assumed namespace has no scope for its declarations. -/
theorem assumed_namespace_fails :
    ∃ file, File.read Table.default "main.tasty" assumedText = .ok file ∧
      (∃ pos ds, Opening.Joins file.openings [] "N" pos ds) ∧
      ∃ pos, file.resolve Table.default = .error (.noScope "N" pos) ∧
        ¬ (ResolveError.noScope "N" pos).Typed := by
  have found : (File.read Table.default "main.tasty" assumedText).toOption.any (fun file =>
      file.openings.map Opening.label = [([], "N", false), ([], "N", true)] &&
        lacksScope "N" (file.resolve Table.default)) = true := by
    rw [assumedText, File.read_ofList]
    decide +kernel
  obtain ⟨file, read, here⟩ := (Option.any_eq_true _ _).mp found
  obtain ⟨labels, failed⟩ := Bool.and_eq_true_iff.mp here
  refine ⟨file, toOption_eq_some read, ?_, ?_⟩
  · have labels := of_decide_eq_true labels
    obtain ⟨first, rest, openings, first', rest'⟩ := List.map_eq_cons_iff.mp labels
    obtain ⟨second, last, rfl, second', last'⟩ := List.map_eq_cons_iff.mp rest'
    obtain rfl := List.map_eq_nil_iff.mp last'
    cases first with
    | block => cases first'
    | assumed π name =>
      cases first'
      cases second with
      | assumed => cases second'
      | block π name pos ds =>
        cases second'
        exact ⟨pos, ds, [.assumed [] "N"], [], openings, List.mem_singleton_self _⟩
  · unfold lacksScope at failed
    split at failed
    · next pos failure =>
      rw [beq_iff_eq] at failed
      subst failed
      exact ⟨pos, failure, id⟩
    · cases failed

end TastyLang
