import TastyLang.Proofs.Compilation.Keeping
import TastyLang.Proofs.Emission.Functions
import TastyLang.Proofs.Evaluation
import TastyLang.Proofs.Resolution.Completeness
import TastyLang.Proofs.Resolution.Within

/-!
# The result of the entry point

The result of a function without a written one is what its returns have in common. For the entry point
the values of trailing expressions do not count, and without any return the result is an integer. A
return without a value counts as one of nothing, so it makes the result nothing
(`File.main_result`).
-/

namespace TastyLang

mutual

/-- The returns that are written in a statement, each with its value if it has one. A trailing
expression is none of them. -/
def Stmt.returned : Stmt → List (Option Expr)
  | .block b => b.returned
  | .branch _ _ _ yes none => yes.returned
  | .branch _ _ _ yes (some no) => yes.returned ++ no.returned
  | .loop _ _ _ body | .count _ _ _ _ _ _ body | .each _ _ _ _ body => body.returned
  | .ret _ (some _) true _ _ => []
  | .ret _ value _ _ _ => [value]
  | .expr _ _ | .decl _ _ | .brk _ _ | .cont _ _ | .inject _ _ => []

def Block.returned : Block → List (Option Expr)
  | .mk _ ss _ => Stmt.returnedOf ss

def Stmt.returnedOf : List Stmt → List (Option Expr)
  | [] => []
  | s :: ss => s.returned ++ Stmt.returnedOf ss

end

namespace Resolution

variable {table : Table} {file : File} {base s s' s'' : State} {fits : Span → Ty → Prop} {p : Place}
  {u : Unit}

/-! ### Steps that return nothing -/

/-- Functions stand as they stood, and every new result is one that fits. -/
structure State.Infers (fits : Span → Ty → Prop) (s s' : State) : Prop where
  stand : ∀ span, s'.stand? span = s.stand? span
  results : ∀ (span : Span) (t : Ty), s'.info.results[span]? = some t →
    s.info.results[span]? = some t ∨ fits span t

theorem State.Infers.refl (fits : Span → Ty → Prop) (s : State) : s.Infers fits s :=
  ⟨fun _ => rfl, fun _ _ found => .inl found⟩

theorem State.Infers.trans (h : s.Infers fits s') (h' : s'.Infers fits s'') : s.Infers fits s'' where
  stand span := (h'.stand span).trans (h.stand span)
  results span t found := (h'.results span t found).elim (h.results span t) .inr

theorem State.Infers.holds (h : s.Infers fits s')
    (same : ∀ span, s.stand? span = base.stand? span) (span : Span) : s'.stand? span = base.stand? span :=
  (h.stand span).trans (same span)

theorem State.Infers.withPhase (s : State) (span : Span) (phase : Phase) :
    s.Infers fits (s.withPhase span phase) :=
  { State.Infers.refl fits s with stand := fun _ => State.stand?_modify fun _ => rfl }

theorem State.Infers.withReturns (s : State) (ts : List Ty) :
    s.Infers fits { s with returns := ts } :=
  ⟨fun _ => rfl, fun _ _ found => .inl found⟩

/-- The returns of the function at hand stay as they are. -/
def inferring (base : State) (fits : Span → Ty → Prop) : Course where
  holds s := ∀ span, s.stand? span = base.stand? span
  leads s s' := s.Infers fits s' ∧ s'.returns = s.returns
  refl s := ⟨.refl fits s, rfl⟩
  trans h h' := ⟨h.1.trans h'.1, h'.2.trans h.2⟩
  lasts holds h := h.1.holds holds

/-- A computation that returns nothing for the function at hand. -/
abbrev Silent {α : Type} (base : State) (fits : Span → Ty → Prop) (m : Resolver α) : Prop :=
  (inferring base fits).Runs m

theorem leads_of_same (funcs : s'.funcs = s.funcs) (results : s'.info.results = s.info.results)
    (returns : s'.returns = s.returns) : (inferring base fits).leads s s' := by
  refine ⟨⟨fun span => ?_, fun span t found => .inl ?_⟩, returns⟩
  · rw [State.stand?, funcs, State.stand?]
  · rwa [results] at found

theorem modifyInfo_silent {f : Info → Info} (results : ∀ i, (f i).results = i.results) :
    Silent base fits (modifyInfo f) :=
  .modify fun _ _ => leads_of_same rfl (results _) rfl

theorem silent_composes : Composes (Silent base fits) where
  pure _ := .pure
  bind := .bind
  get := .get
  failType _ _ := .fail
  refuse _ _ _ := .fail
  alloc x := by
    refine ⟨fun {s _ s'} _ run => ?_⟩
    cases (alloc_run x s).symm.trans run
    exact leads_of_same rfl rfl rfl
  note same := by
    refine .modify fun s _ => ?_
    have same := same s
    simp only [State.core, Prod.mk.injEq] at same
    obtain ⟨-, -, -, -, -, results, -, -, funcs, returns⟩ := same
    exact leads_of_same funcs results returns

theorem declare_silent (sc : ScopeId) (id : SymbolId) (pos : Pos) :
    Silent base fits (declare sc id pos) := by
  refine ⟨fun {s _ s'} _ run => ?_⟩
  obtain ⟨t, -, rfl⟩ := declare_run run
  exact leads_of_same rfl rfl rfl

theorem newScope_silent (parent : Option ScopeId) (kind : ScopeKind) (owner : Option SymbolId) :
    Silent base fits (newScope parent kind owner) := by
  refine ⟨fun {s _ s'} _ run => ?_⟩
  cases (newScope_run parent kind owner s).symm.trans run
  exact leads_of_same rfl rfl rfl

theorem setType_silent (id : SymbolId) (t : Ty) : Silent base fits (setType id t) :=
  .modify fun _ _ => leads_of_same rfl rfl rfl

section

variable (demand : ∀ span, Silent base fits (p.demand span))
include demand

theorem ident_silent (span : Span) (name : String) : Silent base fits (ident p span name) :=
  (silent_composes.bindName name).bind fun id =>
    .bind (modifyInfo_silent fun _ => rfl) fun _ => silent_composes.useType demand span id

theorem expr_silent (e : Expr) : Silent base fits (expr p e) :=
  silent_composes.expr demand e fun span name _ => ident_silent demand span name

theorem varValue_silent (d : VarDecl) (id : SymbolId) : Silent base fits (varValue p d id) :=
  silent_composes.varValue demand (setType_silent id) fun span name _ => ident_silent demand span name

theorem localVar_silent (d : VarDecl) : Silent base fits (localVar p d) :=
  (silent_composes.writtenType d).bind fun _ => (silent_composes.alloc _).bind fun id =>
    (varValue_silent demand d id).bind fun _ => (declare_silent _ id _).bind fun _ =>
      modifyInfo_silent fun _ => rfl

theorem bodyParam_silent (q : Param) : Silent base fits (bodyParam p q) := by
  refine Course.Runs.get.bind fun s => ?_
  split
  · exact .pure
  · refine (declare_silent _ _ _).bind fun _ => ?_
    split
    · exact (expr_silent demand _).bind fun _ => (silent_composes.symbolOf _).bind fun _ =>
        silent_composes.requireAssignable _ _ _
    · exact .pure

end

theorem loopVar_silent (span : Span) (name : String) (t : Ty) :
    Silent base fits (loopVar p span name t) :=
  (newScope_silent _ _ _).bind fun sc => (silent_composes.alloc _).bind fun id =>
    (declare_silent sc id _).bind fun _ => .bind (modifyInfo_silent fun _ => rfl) fun _ => .pure

variable {span : Span} {t : Ty}

theorem loopVar_place {name : String} {q : Place}
    (run : loopVar p span name t s = .ok (q, s')) : ∃ sc, q = { p with scope := sc } := by
  obtain ⟨sc, _, -, run⟩ := bind_ok run
  obtain ⟨_, _, -, run⟩ := bind_ok run
  obtain ⟨_, _, -, run⟩ := bind_ok run
  obtain ⟨_, _, -, run⟩ := bind_ok run
  obtain ⟨rfl, -⟩ := pure_ok run
  exact ⟨sc, rfl⟩

/-! ### Returns of statements -/

/-- In the entry point, returns without values are noted as such. -/
structure State.Returns (fits : Span → Ty → Prop) (entry : Prop) (vs : List (Option Expr))
    (s s' : State) : Prop where
  infers : s.Infers fits s'
  returns : entry → (∀ v ∈ vs, v = none) → s'.returns = s.returns ++ vs.map fun _ => .void

namespace State.Returns

variable {entry : Prop} {vs vs' : List (Option Expr)}

theorem silent (h : (inferring base fits).leads s s') : Returns fits entry [] s s' :=
  ⟨h.1, fun _ _ => h.2.trans (List.append_nil _).symm⟩

theorem append (h : Returns fits entry vs s s') (h' : Returns fits entry vs' s' s'') :
    Returns fits entry (vs ++ vs') s s'' := by
  refine ⟨h.infers.trans h'.infers, fun main bare => ?_⟩
  rw [h'.returns main fun v member => bare v (List.mem_append_right _ member),
    h.returns main fun v member => bare v (List.mem_append_left _ member), List.map_append,
    List.append_assoc]

theorem after (h : Returns fits entry vs s' s'') (first : (inferring base fits).leads s s') :
    Returns fits entry vs s s'' := (silent first).append h

end State.Returns

def Place.AtEntry (p : Place) : Prop := p.fn.any (·.isMain) = true

theorem loop_returns {entry : Prop} {vs : List (Option Expr)} {name : String}
    {body : Block} (inner : ∀ sc s, (inferring base fits).holds s →
      block { p with scope := sc } body s = .ok (u, s') → s.Returns fits entry vs s')
    (holds : (inferring base fits).holds s) (run : (do
      let q ← loopVar p span name t
      block q body) s = .ok (u, s')) : s.Returns fits entry vs s' := by
  obtain ⟨q, s₁, made, run⟩ := bind_ok run
  have first := (loopVar_silent span name t).run holds made
  obtain ⟨sc, rfl⟩ := loopVar_place made
  exact (inner sc s₁ ((inferring base fits).lasts holds first) run).after first

section

variable (demand : ∀ span, Silent base fits (p.demand span))
include demand

theorem returned_returns {value : Option Expr} {implicit effect : Bool} {exit : Option Exit}
    (holds : (inferring base fits).holds s) (run : returned p value implicit s = .ok (u, s')) :
    s.Returns fits p.AtEntry (Stmt.ret span value implicit effect exit).returned s' := by
  cases value with
  | none =>
    cases run
    refine ⟨.withReturns s _, fun _ _ => ?_⟩
    cases implicit <;> rfl
  | some v =>
    obtain ⟨t, s₁, ran, run⟩ := bind_ok run
    have first := (expr_silent demand v).run holds ran
    have later : s₁.Infers fits s' := by
      split at run
      · cases run
        exact .refl fits _
      · obtain ⟨_, s₂, noted, run⟩ := bind_ok run
        obtain rfl := modify_ok noted
        refine (State.Infers.withReturns s₁ (s₁.returns ++ [t])).trans ?_
        have still : (inferring base fits).holds { s₁ with returns := s₁.returns ++ [t] } :=
          first.1.holds holds
        refine ((?_ : Silent base fits _).run still run).1
        split
        · split
          · exact Course.Runs.get.bind fun _ => silent_composes.requireAssignable _ _ _
          · exact .pure
        · exact .pure
    refine ⟨first.1.trans later, fun entry bare => ?_⟩
    cases implicit with
    | true =>
      -- in the entry point the value is only evaluated
      have effect : isEffect p true t = true := by
        rw [isEffect, entry, Bool.or_true, Bool.true_and]
      rw [effect] at run
      cases run
      exact first.2.trans (List.append_nil _).symm
    | false => cases bare (some v) (List.mem_singleton_self _)

end

mutual

theorem stmt_returns {p : Place} (demand : ∀ span, Silent base fits (p.demand span)) {s s' : State}
    {u : Unit} (holds : (inferring base fits).holds s) : (st : Stmt) → stmt p st s = .ok (u, s') →
    s.Returns fits p.AtEntry st.returned s'
  | .block b, run => block_returns demand holds b run
  | .expr _ x, run => .silent ((expr_silent demand x).discard.run holds run)
  | .decl _ d, run => .silent ((localVar_silent demand d).run holds run)
  | .branch _ _ cond yes none, run => by
    obtain ⟨_, s₁, ran, run⟩ := bind_ok run
    have first := (expr_silent demand cond).discard.run holds ran
    obtain ⟨_, s₂, ran, run⟩ := bind_ok run
    cases run
    exact (block_returns demand ((inferring base fits).lasts holds first) yes ran).after first
  | .branch _ _ cond yes (some no), run => by
    obtain ⟨_, s₁, ran, run⟩ := bind_ok run
    have first := (expr_silent demand cond).discard.run holds ran
    obtain ⟨_, s₂, ran, run⟩ := bind_ok run
    have second := (block_returns demand ((inferring base fits).lasts holds first) yes ran).after first
    exact second.append (stmt_returns demand (second.infers.holds holds) no run)
  | .loop _ _ none body, run => block_returns demand holds body run
  | .loop _ _ (some cond) body, run => by
    obtain ⟨_, s₁, ran, run⟩ := bind_ok run
    have first := (expr_silent demand cond).discard.run holds ran
    exact (block_returns demand ((inferring base fits).lasts holds first) body run).after first
  | .count span _ name low high step body, run => by
    have rest {l h : Ty} {s₁ : State} (holds : (inferring base fits).holds s₁) (run : (do
        let t ← countType p l h
        let inner ← loopVar p span name t
        block inner body) s₁ = .ok (u, s')) : s₁.Returns fits p.AtEntry body.returned s' := by
      obtain ⟨t, s₂, ran, run⟩ := bind_ok run
      have first := (silent_composes.countType l h).run holds ran
      exact (loop_returns (fun sc s holds run => block_returns (p := { p with scope := sc }) demand holds
        body run) ((inferring base fits).lasts holds first) run).after first
    rw [stmt] at run
    obtain ⟨l, s₁, ran, run⟩ := bind_ok run
    have first := (expr_silent demand low).run holds ran
    obtain ⟨h, s₂, ran, run⟩ := bind_ok run
    have second := (expr_silent demand high).run ((inferring base fits).lasts holds first) ran
    have bounds := (inferring base fits).trans first second
    have holds₂ := (inferring base fits).lasts holds bounds
    cases step with
    | none => exact (rest holds₂ run).after bounds
    | some step =>
      obtain ⟨_, s₃, ran, run⟩ := bind_ok run
      have third := (expr_silent demand step).discard.run holds₂ ran
      exact ((rest ((inferring base fits).lasts holds₂ third) run).after third).after bounds
  | .each _ _ _ items body, run => by
    obtain ⟨t, s₁, ran, run⟩ := bind_ok run
    have first := (silent_composes.iterated demand fun span name _ => ident_silent demand span name).run holds ran
    exact (loop_returns (fun sc s₁ holds run => block_returns (p := { p with scope := sc }) demand holds body run)
      ((inferring base fits).lasts holds first) run).after first
  | .ret _ value implicit _ _, run => returned_returns demand holds run
  | .brk _ _, run | .cont _ _, run | .inject _ _, run => by
    cases run
    exact .silent ((inferring base fits).refl s)

theorem block_returns {p : Place} (demand : ∀ span, Silent base fits (p.demand span)) {s s' : State}
    {u : Unit} (holds : (inferring base fits).holds s) : (b : Block) → block p b s = .ok (u, s') →
    s.Returns fits p.AtEntry b.returned s'
  | .mk _ ss _, run => by
    obtain ⟨sc, s₁, made, run⟩ := bind_ok run
    have first : (inferring base fits).leads s s₁ := (newScope_silent _ _ _).run holds made
    exact (stmts_return (p := { p with scope := sc }) demand ((inferring base fits).lasts holds first) ss
      run).after first

theorem stmts_return {p : Place} (demand : ∀ span, Silent base fits (p.demand span)) {s s' : State}
    {u : Unit} (holds : (inferring base fits).holds s) : (ss : List Stmt) →
    stmts p ss s = .ok (u, s') → s.Returns fits p.AtEntry (Stmt.returnedOf ss) s'
  | [], run => by
    cases run
    exact .silent ((inferring base fits).refl s)
  | st :: ss, run => by
    obtain ⟨_, s₁, ran, run⟩ := bind_ok run
    have first := stmt_returns demand holds st ran
    exact first.append (stmts_return demand (first.infers.holds holds) ss run)

end

/-! ### Results -/

/-- What the entry point gives whose written returns are `vs`, none of them with a value. -/
def mainResult (table : Table) (vs : List (Option Expr)) : Ty :=
  if vs = [] then primitive table "int" else .void

theorem common_voids (h : Hierarchy) (vs : List (Option Expr)) (some_ : vs ≠ []) :
    Ty.common h (vs.map fun _ => .void) = some .void := by
  have rest : ∀ vs : List (Option Expr), (vs.map fun _ => Ty.void).foldlM (Ty.unify h) .void = some .void := by
    intro vs
    induction vs with
    | nil => rfl
    | cons v vs ih => exact ih
  obtain ⟨v, vs, rfl⟩ := List.exists_cons_of_ne_nil some_
  exact rest vs

variable {st : FuncState}

theorem inferResult_main {vs : List (Option Expr)} (main : st.isMain = true)
    (run : inferResult table st (vs.map fun _ => .void) s = .ok (t, s')) : t = mainResult table vs := by
  unfold inferResult at run
  simp only [FuncState.isMain, Bool.and_eq_true] at main
  cases vs with
  | nil =>
    rw [List.map_nil] at run
    dsimp only at run
    rw [main.1.1, main.2] at run
    exact (pure_ok run).1.symm
  | cons v vs =>
    obtain ⟨_, _, read, run⟩ := bind_ok run
    cases read
    rw [common_voids _ (v :: vs) (List.cons_ne_nil v vs)] at run
    exact (pure_ok run).1.symm

/-- The result at a place is right if a global function stands there that is the entry point, all of
whose returns are without values. -/
def Answers (table : Table) (base : State) (span : Span) (t : Ty) : Prop :=
  ∀ f cls b, base.stand? span = some (f, some SymbolTable.global, cls) → f.name = "main" → f.kind = .plain →
    f.body = some b → (∀ v ∈ b.returned, v = none) → t = mainResult table b.returned

/-- The result is inferred from what the body returns, unless it is there already. -/
theorem result_infers (known : base.stand? st.decl.info.span = some st.stand)
    (returns : st.isMain = true → ∀ b, st.decl.body = some b → (∀ v ∈ b.returned, v = none) →
      s.returns = b.returned.map fun _ => .void) (run : (do
        unless (← get).info.results.contains st.decl.info.span do
          let t ← inferResult table st (← get).returns
          modifyInfo fun i => { i with results := i.results.insert st.decl.info.span t } :
          Resolver Unit) s = .ok (u, s')) : s.Infers (Answers table base) s' := by
  obtain ⟨_, _, read, run⟩ := bind_ok run
  cases read
  split at run
  · cases run
    exact .refl _ s
  · obtain ⟨_, _, read, run⟩ := bind_ok run
    cases read
    obtain ⟨t, s₁, inferred, run⟩ := bind_ok run
    have first : s.Infers (Answers table base) s₁ :=
      ((silent_composes.inferResult table st s.returns : Silent s _ _).run (fun _ => rfl) inferred).1
    obtain rfl := modify_ok run
    refine first.trans ⟨fun _ => rfl, fun span u found => ?_⟩
    rcases getElem?_insert_cases found with ⟨rfl, rfl⟩ | old
    · refine .inr fun f cls b stands name plain body bare => ?_
      obtain ⟨rfl, scope, -⟩ : st.decl = f ∧ st.scope = some SymbolTable.global ∧ st.cls = cls := by
        simpa [FuncState.stand] using known.symm.trans stands
      have main : st.isMain = true := by simp [FuncState.isMain, name, plain, scope]
      rw [returns main b body bare] at inferred
      exact inferResult_main main inferred
    · exact .inl old

theorem funcBody_infers (demand : ∀ span, Silent base (Answers table base) (p.demand span))
    (own : p.fn = some st) (same : p.table = table)
    (known : base.stand? st.decl.info.span = some st.stand)
    (holds : (inferring base (Answers table base)).holds s) (empty : s.returns = [])
    (run : funcBody p st s = .ok (u, s')) : s.Infers (Answers table base) s' := by
  obtain ⟨_, s₁, ran, run⟩ := bind_ok run
  obtain ⟨first, still⟩ :=
    (Course.Runs.forM fun q _ => bodyParam_silent demand q).run holds ran
  rw [same] at run
  cases given : st.decl.body with
  | none =>
    rw [given] at run
    exact first.trans (result_infers known (fun _ b body => by cases given.symm.trans body) run)
  | some b =>
    rw [given] at run
    obtain ⟨_, s₂, ran, run⟩ := bind_ok run
    have second := block_returns demand (first.holds holds) b ran
    refine (first.trans second.infers).trans (result_infers known (fun main b' body bare => ?_) run)
    obtain rfl := Option.some.inj (given.symm.trans body)
    have entry : p.AtEntry := by rw [Place.AtEntry, own]; exact main
    rw [second.returns entry bare, still, empty, List.nil_append]

theorem enterFunc_silent {demand : Span → Resolver Unit}
    (demands : ∀ span, Silent base (Answers table base) (demand span))
    (known : base.stand? st.decl.info.span = some st.stand) :
    Silent base (Answers table base) (enterFunc table demand st) := by
  refine ⟨fun {s _ s'} holds run => ?_⟩
  obtain ⟨_, _, read, run⟩ := bind_ok run
  cases read
  obtain ⟨_, s₁, emptied, run⟩ := bind_ok run
  obtain rfl := modify_ok emptied
  have still : (inferring base (Answers table base)).holds { s with returns := [] } := holds
  obtain ⟨sc, s₂, made, run⟩ := bind_ok run
  have first := (newScope_silent _ _ _).run still made
  obtain ⟨_, s₃, ran, run⟩ := bind_ok run
  have second := funcBody_infers (p := ⟨table, sc, none, some st, demand⟩) demands rfl rfl known
    (first.1.holds holds) first.2 ran
  obtain rfl := modify_ok run
  exact ⟨((State.Infers.withReturns s []).trans first.1 |>.trans second).trans (.withReturns s₃ _), rfl⟩

theorem resolveFunc_silent (formed : base.Formed file) (n : Nat) (span : Span) :
    Silent base (Answers table base) (resolveFunc table n span) := by
  induction n generalizing span with
  | zero => exact .pure
  | succ n ih =>
    refine ⟨fun {s u s'} holds run => ?_⟩
    rcases resolveFunc_ok run with ⟨rfl, -⟩ | ⟨st, s₁, found, -, entered, rfl⟩
    · exact (inferring _ _).refl _
    · have known : base.stand? span = some st.stand := by
        rw [← holds span, State.stand?, found]
        rfl
      obtain ⟨st', found', stands⟩ := Option.map_eq_some_iff.mp known
      obtain ⟨-, own, -⟩ := formed.funcs span st' found'
      have decl : st'.decl = st.decl := congrArg Prod.fst stands
      rw [← own, decl] at known
      have first : (inferring base (Answers table base)).leads s (s.withPhase span .active) :=
        ⟨.withPhase _ _ _, rfl⟩
      have second := (enterFunc_silent ih known).run ((inferring _ _).lasts holds first) entered
      have last : (inferring base (Answers table base)).leads s₁ (s₁.withPhase span .done) :=
        ⟨.withPhase _ _ _, rfl⟩
      exact (inferring _ _).trans ((inferring _ _).trans first second) last

/-! ### The third pass -/

theorem namespaceScope_silent (sc : ScopeId) (name : String) (pos : Pos) (ds : List Decl) :
    Silent base fits (namespaceScope sc name pos ds) := by
  refine Course.Runs.get.bind fun s => ?_
  dsimp only
  split
  · exact .pure
  · split
    · exact .fail
    · exact .pure
  · refine Course.Runs.bind (?_ : Silent base fits (declareOwner sc _ _ pos)) fun made =>
      (Course.Runs.get.bind fun _ => .pure).bind fun _ => (setType_silent made.1 _).bind fun _ => .pure
    exact (silent_composes.alloc _).bind fun id => (declare_silent sc id pos).bind fun _ =>
      (newScope_silent _ _ _).bind fun _ => .bind (modifyInfo_silent fun _ => rfl) fun _ => .pure

theorem itemBody_silent (demand : ∀ span, Silent base fits (p.demand span)) (i : Item) :
    Silent base fits (itemBody p i) := by
  cases i with
  | var d =>
    refine Course.Runs.get.bind fun s => ?_
    split
    · exact varValue_silent demand d _
    · exact .pure
  | func f => exact demand f.info.span
  | enum d =>
    refine Course.Runs.get.bind fun s => .forM fun m _ => ?_
    split
    · refine (expr_silent (fun span => ?_) _).discard
      exact demand span
    · exact .pure
  | inject info text => exact .pure

mutual

theorem body_silent {p : Place} (demand : ∀ span, Silent base fits (p.demand span)) : (d : Decl) →
    Silent base fits (body p d)
  | .item i => itemBody_silent demand i
  | .scope _ name ds => (namespaceScope_silent p.scope name _ ds).bind fun members =>
    bodies_silent (p := { p with scope := members }) demand ds
  | .cls info _ _ items => by
    refine Course.Runs.get.bind fun s => ?_
    split
    · exact (silent_composes.symbolOf _).bind fun sym => .forM fun i _ =>
        itemBody_silent (p := { p with scope := sym.members.getD p.scope }) demand i
    · exact .pure
  | .abstraction _ _ _ _ | .refurbish _ _ _ => .forM fun f _ => demand f.info.span
  | .includes _ _ _ _ | .assume _ _ _ | .attributeDef _ _ _ _ => .pure

theorem bodies_silent {p : Place} (demand : ∀ span, Silent base fits (p.demand span)) :
    (ds : List Decl) → Silent base fits (bodies p ds)
  | [] => .pure
  | d :: ds => (body_silent demand d).bind fun _ => bodies_silent demand ds

end

/-! ### Global functions -/

theorem declareFunc_stands {sc : ScopeId} {f : FuncDecl} (run : declareFunc sc f s = .ok (u, s')) :
    ∃ cls, s'.stand? f.info.span = some (f, some sc, cls) := by
  have last {cls : Option SymbolId} {s₁ : State}
      (run : noteFunc f { decl := f, scope := sc, cls } s₁ = .ok (u, s')) :
      ∃ cls, s'.stand? f.info.span = some (f, some sc, cls) := by
    obtain rfl := modify_ok run
    exact ⟨cls, State.stand?_insert.trans (if_pos rfl)⟩
  unfold declareFunc at run
  split at run
  · obtain ⟨_, _, read, run⟩ := bind_ok run
    cases read
    exact last run
  · obtain ⟨_, _, -, run⟩ := bind_ok run
    obtain ⟨_, _, -, run⟩ := bind_ok run
    obtain ⟨_, _, read, run⟩ := bind_ok run
    cases read
    exact last run

theorem mem_funcsOf {ds : List Decl} {f : FuncDecl} (member : .item (.func f) ∈ ds) :
    f ∈ Decl.funcsOf ds := by
  rw [Decl.funcsOf_eq]
  exact List.mem_flatMap.mpr ⟨_, member, List.mem_cons_self⟩

theorem declareDecls_stand {sc : ScopeId} {ds : List Decl} {f : FuncDecl}
    (scattered : Scattered (Decl.funcsOf ds)) (member : .item (.func f) ∈ ds)
    (run : declareDecls sc ds s = .ok (u, s')) : ∃ cls, s'.stand? f.info.span = some (f, some sc, cls) := by
  induction ds generalizing s with
  | nil => cases member
  | cons d ds ih =>
    obtain ⟨_, s₁, here, rest⟩ := bind_ok run
    rcases List.mem_cons.mp member with rfl | member
    · obtain ⟨cls, stands⟩ := declareFunc_stands here
      have spares : s₁.Spares [] (Decl.notesOf false ds) s' :=
        (declareDecls_spares sc ds fun _ h => h).run trivial rest
      refine ⟨cls, (spares.stand _ fun g later => ?_).trans stands⟩
      exact (scattered.apart List.mem_cons_self (Decl.notesOf_funcs ds later)).symm
    · exact ih scattered.right member rest

theorem notes_apart {ds : List Decl} {f g : FuncDecl} (scattered : Scattered (Decl.funcsOf ds))
    (member : .item (.func f) ∈ ds) (noted : g ∈ Decl.notesOf true ds) : g.info.span ≠ f.info.span := by
  induction ds with
  | nil => cases member
  | cons d ds ih =>
    rcases List.mem_append.mp noted with here | later
    · rcases List.mem_cons.mp member with rfl | member
      · cases here
      · exact scattered.apart (Decl.notes_funcs d here) (mem_funcsOf member)
    · rcases List.mem_cons.mp member with rfl | member
      · exact (scattered.apart List.mem_cons_self (Decl.notesOf_funcs ds later)).symm
      · exact ih scattered.right member later

theorem Prepared.global {name src : String} {s₁ s₂ : State}
    (read : File.read table name src = .ok file) (prepared : Prepared table file file.decls s₁ s₂)
    {f : FuncDecl} (member : .item (.func f) ∈ file.decls) :
    ∃ cls, s₂.stand? f.info.span = some (f, some SymbolTable.global, cls) := by
  obtain ⟨p, q, lies⟩ := File.read_lies read
  have scattered := lies.funcs.scattered
  obtain ⟨cls, stands⟩ := declareDecls_stand scattered member prepared.declared
  have spares : s₁.Spares file.funcs (Decl.notesOf true file.decls) s₂ :=
    (signatures_spares _ file.decls (fun _ h => h) fun _ h => h).run trivial prepared.signed
  exact ⟨cls, (spares.stand _ fun g noted => notes_apart scattered member noted).trans stands⟩

end Resolution

open Resolution

section

variable {table : Table} {name src : String} {file : File} {info : Info} {f : FuncDecl} {b : Block}

theorem File.result_of_main (read : File.read table name src = .ok file)
    (resolved : file.resolve table = .ok info) (global : .item (.func f) ∈ file.decls)
    (main : f.name = "main") (plain : f.kind = .plain) (unwritten : f.result = none)
    (body : f.body = some b) (bare : ∀ v ∈ b.returned, v = none) :
    info.result f = mainResult table b.returned := by
  obtain ⟨s₁, s₂, s, passed, rfl⟩ := File.read_passed read resolved
  obtain ⟨p, q, lies⟩ := File.read_lies read
  have listed := mem_funcsOf global
  obtain ⟨t, found⟩ := mem_iff_found.mp (passed.finished f listed).result
  have infers : s₂.Infers (Answers table s₂) s :=
    ((bodies_silent (resolveFunc_silent passed.formed _) file.decls).run (fun _ => rfl) passed.ran).1
  have result : s.info.result f = t := by
    rw [Info.result, Std.TreeMap.getD_eq_getD_getElem?, found]
    rfl
  rw [result]
  rcases infers.results _ _ found with early | answers
  · -- no signature says what the result is
    have known : f.info.span ∈ s₂.info.results := mem_iff_found.mpr ⟨_, early⟩
    rcases passed.spares.results _ known with new | ⟨g, listed', same, gives⟩
    · simp at new
    · obtain rfl : g = f :=
        List.inj_on_of_nodup_map (List.pairwise_map.mpr lies.funcs.scattered) listed' listed same
      rcases gives with written | kind | kind | none_
      · rw [unwritten] at written
        cases written
      · cases plain.symm.trans kind
      · cases plain.symm.trans kind
      · cases body.symm.trans none_
  · obtain ⟨cls, stands⟩ := passed.global read global
    exact answers f cls b stands main plain body bare

end

namespace Emission

theorem Routine.head_names {info : Info} {e : Routine} {t : String} (free : e.home = .free)
    (plain : e.func.kind = .plain) (head : e.head info = .ok t) :
    (typeName (info.result e.func) ++ " " ++ e.func.name ++ "(").toList <:+: t.toList := by
  have named {ms : Modifiers} {defaults : Bool}
      (head : (ms.lead ++ ·) <$> signature info "" e.func "" defaults = .ok t) :
      (typeName (info.result e.func) ++ " " ++ e.func.name ++ "(").toList <:+: t.toList := by
    rw [map_eq_pure_bind] at head
    obtain ⟨own, signed, whole⟩ := except_bind_ok head
    cases whole
    obtain ⟨ps, -, signed⟩ := except_bind_ok signed
    rw [plain] at signed
    cases signed
    refine ⟨ms.lead.toList, (ps ++ ")" ++ if e.func.constant then " const" else "").toList, ?_⟩
    simp [List.append_assoc]
  rw [Routine.head, free] at head
  dsimp only at head
  split at head
  · rw [Routine.prototype, free] at head
    exact named head
  · exact named head

end Emission

/-! ### What becomes of a global function -/

section

variable {info : Info} {ds ds' : List Decl} {f : FuncDecl}

theorem Decl.settleAll_eq (atTop : Bool) (ds : List Decl) :
    Decl.settleAll info atTop ds = ds.map (Decl.settle info atTop) := by
  induction ds with
  | nil => rfl
  | cons d ds ih => rw [Decl.settleAll, ih, List.map_cons]

theorem Attribute.expandDecls_item {defs : List Attribute.Definition} (run : expandDecls defs ds = .ok ds')
    (member : .item (.func f) ∈ ds) :
    ∃ own, own.span = f.info.span ∧ .item (.func { f with info := own }) ∈ ds' := by
  induction ds generalizing ds' with
  | nil => cases member
  | cons d ds ih =>
    obtain ⟨d', first, run⟩ := except_bind_ok run
    obtain ⟨rest, later, run⟩ := except_bind_ok run
    cases run
    rcases List.mem_cons.mp member with rfl | member
    · obtain ⟨i, item, first⟩ := except_bind_ok first
      cases first
      obtain ⟨own, expanded, item⟩ := except_bind_ok item
      cases item
      exact ⟨own, Attribute.expandInfo_span expanded, List.mem_cons_self⟩
    · obtain ⟨own, same, inside⟩ := ih later member
      exact ⟨own, same, List.mem_cons_of_mem _ inside⟩

theorem Attribute.inheritDecls_item {known : List (Span × List String)} {i : Item}
    (member : .item i ∈ ds) : .item i ∈ inheritDecls known ds := by
  induction ds with
  | nil => cases member
  | cons d ds ih =>
    rw [inheritDecls]
    rcases List.mem_cons.mp member with rfl | member
    · exact List.mem_cons_self
    · exact List.mem_cons_of_mem _ (ih member)

theorem analyze_global {table : Table} {name src : String} {file : File} {a : Analysis}
    (read : File.read table name src = .ok file) (resolved : file.resolve table = .ok info)
    (analysis : analyze table name src = .ok a) (member : .item (.func f) ∈ file.decls) :
    a.info = info ∧ ∃ g, .item (.func g) ∈ a.file.decls ∧ g.info.span = f.info.span ∧
      g.name = f.name ∧ g.kind = f.kind ∧ g.body.isSome = f.body.isSome := by
  obtain ⟨file', again, analysis⟩ := except_bind_ok analysis
  obtain rfl := Except.ok.inj ((mapError_ok again).symm.trans read)
  obtain ⟨info', again, analysis⟩ := except_bind_ok analysis
  obtain rfl := Except.ok.inj ((mapError_ok again).symm.trans resolved)
  obtain ⟨expanded, expansion, analysis⟩ := except_bind_ok analysis
  cases analysis
  refine ⟨rfl, ?_⟩
  obtain ⟨ds, expands, whole⟩ := except_bind_ok (mapError_ok expansion)
  cases whole
  have settled : .item (.func (f.settle info' true)) ∈ (file'.settle info').decls := by
    rw [File.settle, Decl.settleAll_eq]
    exact List.mem_map_of_mem member
  obtain ⟨own, same, inside⟩ := Attribute.expandDecls_item expands settled
  exact ⟨_, Attribute.inheritDecls_item inside, same, rfl, rfl, Option.isSome_map⟩

theorem Decl.mem_routinesOf (visible : Bool) (member : .item (.func f) ∈ ds) :
    ⟨.free, visible && !f.info.generated.noHeader, f⟩ ∈ Decl.routinesOf info visible ds := by
  induction ds with
  | nil => cases member
  | cons d ds ih =>
    rw [Decl.routinesOf, List.mem_append]
    rcases List.mem_cons.mp member with rfl | member
    · exact .inl List.mem_cons_self
    · exact .inr (ih member)

end

section

variable {table : Table} {name src : String} {file : File} {info : Info} {f : FuncDecl} {b : Block}

/-- Say no return of the entry point carries a value, trailing expressions aside. Then its result is an
integer if it has no return at all, and nothing if it has one; so it is whatever blocks and loops the
returns stand in. The function is defined with this result. -/
theorem File.main_result (read : File.read table name src = .ok file)
    (resolved : file.resolve table = .ok info) (global : .item (.func f) ∈ file.decls)
    (main : f.name = "main") (plain : f.kind = .plain) (unwritten : f.result = none)
    (body : f.body = some b) (bare : ∀ v ∈ b.returned, v = none) :
    info.result f = mainResult table b.returned ∧
      ∀ o c, compile table o name src = .ok c → ∃ sheet,
        (Emission.typeName (mainResult table b.returned) ++ " main(").toList <:+: (c.unit.text sheet).toList := by
  have result := File.result_of_main read resolved global main plain unwritten body bare
  refine ⟨result, fun o c compiled => ?_⟩
  obtain ⟨a, analysis, compiled⟩ := except_bind_ok compiled
  obtain ⟨unit, emitted, compiled⟩ := except_bind_ok compiled
  cases compiled
  obtain ⟨rfl, g, inside, same, named, kind, there⟩ := analyze_global read resolved analysis global
  have member : _ ∈ Decl.routinesOf a.info true a.file.decls := Decl.mem_routinesOf true inside
  obtain ⟨b', has⟩ := Option.isSome_iff_exists.mp (there.trans (by rw [body]; rfl))
  obtain ⟨t, cs, head, -, found⟩ := (CppUnit.text_of_emit (mapError_ok emitted) member).2 b' has
  have names := Emission.Routine.head_names rfl (kind.trans plain) head
  dsimp only at names
  have answer : a.info.result g = mainResult table b.returned := by
    rw [← result, Info.result, Info.result, same]
  have spaced : " " ++ ("main" ++ "(") = " main(" := by decide
  rw [answer, named, main, String.append_assoc, String.append_assoc, spaced] at names
  have behind : t.toList <:+: (t ++ " ").toList ++ cs := by
    rw [String.toList_append, List.append_assoc]
    exact (List.prefix_append _ _).isInfix
  exact ⟨_, (names.trans behind).trans found⟩

end

/-- An entry point that ends with an expression. -/
def effectText : String := "fn main() {
  loop { break; }
  5
}
"

/-- The file has one declaration, the entry point, and its returns are as `p` says. -/
def File.isMain (file : File) (p : List (Option Expr) → Bool) : Bool :=
  match file.decls with
  | [.item (.func f)] => f.name == "main" && f.kind == .plain && f.result.isNone &&
    f.body.any fun b => p b.returned
  | _ => false

theorem File.isMain_iff {file : File} {p : List (Option Expr) → Bool} (h : file.isMain p = true) :
    ∃ f b, file.decls = [.item (.func f)] ∧ f.name = "main" ∧ f.kind = .plain ∧ f.result = none ∧
      f.body = some b ∧ p b.returned = true := by
  unfold File.isMain at h
  split at h
  · next f whole =>
    simp only [Bool.and_eq_true, beq_iff_eq, Option.isNone_iff_eq_none] at h
    obtain ⟨⟨⟨name, kind⟩, unwritten⟩, h⟩ := h
    obtain ⟨b, body, holds⟩ := (Option.any_eq_true _ _).mp h
    exact ⟨f, b, whole, name, kind, unwritten, body, holds⟩
  · cases h

theorem File.main_result_of_effect :
    ∃ file info f c, File.read Table.default "main.tasty" effectText = .ok file ∧
      file.resolve Table.default = .ok info ∧ file.decls = [.item (.func f)] ∧ f.name = "main" ∧
      compile Table.default {} "main.tasty" effectText = .ok c ∧
      info.result f = primitive Table.default "int" ∧
      ∃ sheet, "int main(".toList <:+: (c.unit.text sheet).toList := by
  have found : (resolved? Table.default "main.tasty" effectText).any (fun r =>
      r.1.isMain List.isEmpty) = true := by
    rw [resolved?, effectText, File.read_ofList]
    decide +kernel
  have compiles : (compile Table.default {} "main.tasty" effectText).toOption.isSome = true := by
    rw [compile, analyze, effectText, File.read_ofList]
    decide +kernel
  obtain ⟨⟨file, info⟩, steps, found⟩ := (Option.any_eq_true _ _).mp found
  obtain ⟨read, resolved⟩ := resolved?_some steps
  obtain ⟨f, b, whole, name, kind, unwritten, body, none_⟩ := File.isMain_iff found
  obtain ⟨c, compiled⟩ := Option.isSome_iff_exists.mp compiles
  have bare : ∀ v ∈ b.returned, v = none := by simp [List.isEmpty_iff.mp none_]
  obtain ⟨result, written⟩ := File.main_result read resolved (by rw [whole]; exact List.mem_cons_self)
    name kind unwritten body bare
  rw [List.isEmpty_iff.mp none_] at result written
  exact ⟨file, info, f, c, read, resolved, whole, name, toOption_eq_some compiled, result,
    written {} c (toOption_eq_some compiled)⟩

def bareReturnText : String := "fn main() { return;
}
"

/-- Whether a declaration is a function without a result. -/
def Info.givesNothing (info : Info) : Decl → Bool
  | .item (.func f) => (info.result f).isVoid
  | _ => false

/-- The result of an entry point with a return is nothing. -/
theorem bare_return_main : ∃ file info f b c,
    File.read Table.default "main.tasty" bareReturnText = .ok file ∧
      file.resolve Table.default = .ok info ∧ file.decls = [.item (.func f)] ∧ f.name = "main" ∧
      f.kind = .plain ∧ f.result = none ∧ f.body = some b ∧ (∀ v ∈ b.returned, v = none) ∧
      (info.result f).isVoid = true ∧
      compile Table.default {} "main.tasty" bareReturnText = .ok c ∧
      Text.cut '\n' c.unit.source =
        ["#include \"main.hpp\"", "void main() \x7b", "\treturn;", "\x7d", ""] := by
  have found : (resolved? Table.default "main.tasty" bareReturnText).any (fun r =>
      r.1.isMain (fun vs => vs.all Option.isNone) && r.1.decls.all r.2.givesNothing) = true := by
    rw [resolved?, bareReturnText, File.read_ofList]
    decide +kernel
  have compiles : (compile Table.default {} "main.tasty" bareReturnText).toOption.any (fun c =>
      Text.cut '\n' c.unit.source =
        ["#include \"main.hpp\"", "void main() \x7b", "\treturn;", "\x7d", ""]) = true := by
    rw [compile, analyze, bareReturnText, File.read_ofList]
    decide +kernel
  obtain ⟨⟨file, info⟩, steps, found⟩ := (Option.any_eq_true _ _).mp found
  obtain ⟨read, resolved⟩ := resolved?_some steps
  obtain ⟨main, nothing⟩ := (Bool.and_eq_true _ _).mp found
  obtain ⟨f, b, whole, name, kind, unwritten, body, bare⟩ := File.isMain_iff main
  obtain ⟨c, compiled, lines⟩ := (Option.any_eq_true _ _).mp compiles
  rw [whole] at nothing
  refine ⟨file, info, f, b, c, read, resolved, whole, name, kind, unwritten, body, fun v member => ?_,
    ?_, toOption_eq_some compiled, of_decide_eq_true lines⟩
  · exact Option.isNone_iff_eq_none.mp (List.all_eq_true.mp bare v member)
  · simpa [Info.givesNothing] using nothing

end TastyLang
