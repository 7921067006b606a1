import TastyLang.Proofs.Resolution.Expressions
import TastyLang.Proofs.Resolution.Signatures
import TastyLang.Resolution.Bodies

/-!
# Bodies keep the state sound

The third pass over a file. A block that is resolved declares no name twice, and every function of
the file is resolved in the end (`File.resolve_sound`).
-/

namespace TastyLang

variable {table : Table}

namespace Resolution

variable {good : String → Prop} {fs : List FuncDecl} {p : Place}

/-! ### Variables -/

theorem spelt_inferredType (spelling : Spelling good) (s : Storage) {value : Option (Expr × Ty)}
    (spelt : ∀ x, value = some x → x.2.Spelt good) : (inferredType s value).Spelt good := by
  unfold inferredType
  split
  · exact spelt_unknown spelling
  · next elem _ =>
    have inner : elem.Spelt good := spelt _ rfl
    exact inner.typeOf s
  · exact (spelt _ rfl).deref.typeOf s

theorem setInferred_keeps (spelling : Spelling good) (d : VarDecl) (id : SymbolId)
    {value : Option (Expr × Ty)} (spelt : ∀ x, value = some x → x.2.Spelt good) :
    Keeps good fs (match d.type, value with
      | some _, some (v, t) => do
        unless v.isNew do
          requireAssignable ((← symbolOf id).type.getD (.unknown "")) t v.pos
      | some _, none => pure ()
      | none, value => setType id (inferredType d.storage value)) fun _ => True := by
  split
  · split
    · exact .pure trivial
    · exact (symbolOf_keeps spelling id).bind fun _ _ => requireAssignable_keeps _ _ _
  · exact .pure trivial
  · exact setType_keeps id (spelt_inferredType spelling d.storage spelt)

variable {d : VarDecl}

theorem noteVar_keeps (span : Span) (id : SymbolId) :
    Keeps good fs (modifyInfo fun i => { i with vars := i.vars.insert span id }) fun _ => True :=
  note_keeps (fun _ => rfl) (fun _ => rfl) fun _ h => { h with }

variable {t : Ty}

theorem spelt_elemType (spelling : Spelling good) (spelt : t.Spelt good) :
    (elemType t).Spelt good := by
  have core := spelt.deref.core
  unfold elemType
  split
  · next same =>
    rw [same] at core
    exact core
  · next same =>
    rw [same] at core
    exact core.2.1
  · exact spelt_unknown spelling

theorem noteReturn_keeps (spelt : t.Spelt good) :
    Keeps good fs (noteReturn t) fun _ => True := by
  refine modify_keeps fun s sound => ⟨.of_same rfl rfl rfl, ?_⟩
  refine { sound with returns := fun u member => ?_ }
  rcases List.mem_append.mp member with member | member
  · exact sound.returns u member
  · exact List.mem_singleton.mp member ▸ spelt

variable {p₁ p₂ : Pos} {s s' : State} {u : Unit}

section

variable (spelling : Spelling good) (sound : p.Sound good fs)

include spelling sound

theorem varValue_keeps (flat : ∀ v, d.value = some v → v.Flat) (id : SymbolId) :
    Keeps good fs (varValue p d id) fun _ => True := by
  unfold varValue
  split
  · next v given =>
    refine (expr_keeps spelling sound v (flat v given)).bind fun t spelt => ?_
    refine setInferred_keeps spelling d id fun x same => ?_
    cases same
    exact spelt
  · exact setInferred_keeps spelling d id fun x same => by cases same

theorem writtenType_keeps (flat : ∀ t, d.type = some t → t.Flat) :
    Keeps good fs (writtenType p d) fun type => ∀ t, type = some t → t.Spelt good := by
  unfold writtenType
  split
  · next te written =>
    refine (typeExpr_keeps spelling sound te (flat te written)).bind fun t spelt => .pure ?_
    intro u same
    cases same
    exact spelt.typeOf _
  · exact .pure fun _ h => by cases h

theorem localVar_keeps (lies : d.Lies p₁ p₂) : Keeps good fs (localVar p d) fun _ => True := by
  refine (writtenType_keeps spelling sound lies.type).bind fun type spelt => ?_
  have name := spelling.oneLine lies.name
  refine Keeps.bind (alloc_keeps ⟨name, spelt⟩) fun id _ => ?_
  refine (varValue_keeps spelling sound lies.value id).bind fun _ _ => ?_
  exact (declare_keeps _ id _).bind fun _ _ => noteVar_keeps _ id

theorem localVar_declares (lies : d.Lies p₁ p₂) (known : s.Sound good fs)
    (isOpen : p.scope < s.info.symbols.scopes.size) (run : localVar p d s = .ok (u, s')) :
    ¬ s.info.symbols.Declares p.scope d.name ∧ s'.info.symbols.Declares p.scope d.name := by
  obtain ⟨type, s₁, known₁, leads₁, _, spelt, run⟩ :=
    (writtenType_keeps spelling sound lies.type).first_ok known run
  have name := spelling.oneLine lies.name
  obtain ⟨id, s₂, known₂, leads₂, made, _, run⟩ :=
    (alloc_keeps (x := { name := d.name, kind := .var, type, origin := .var d.info.span })
      ⟨name, spelt⟩).first_ok known₁ run
  obtain ⟨_, s₃, known₃, leads₃, _, _, run⟩ :=
    (varValue_keeps spelling sound lies.value id).first_ok known₂ run
  obtain ⟨_, s₄, known₄, leads₄, declared, _, run⟩ := (declare_keeps _ id _).first_ok known₃ run
  cases run
  obtain ⟨lt, same⟩ := alloc_ok made
  obtain ⟨t, added, rfl⟩ := declare_run declared
  -- the symbol made for the variable keeps its name until it is declared
  have name := leads₃.symbols.names _ lt
  have kind := leads₃.symbols.kinds _ lt
  rw [same] at name kind
  have reach := (leads₁.trans leads₂).trans leads₃
  have isOpen' := Nat.lt_of_lt_of_le isOpen reach.symbols.scopes
  have known' := Nat.lt_of_lt_of_le lt leads₃.symbols.symbols
  have after := SymbolTable.declare_declares added isOpen' known'
  rw [name] at after
  refine ⟨fun before => ?_, after⟩
  rcases (SymbolTable.declare_ok added).2 with fresh | shared
  · rw [name] at fresh
    exact SymbolTable.lookupLocal?_none fresh (before.mono reach.symbols isOpen)
  · rw [kind] at shared
    cases shared

/-! ### Statements -/

theorem loopVar_keeps (span : Span) {name : String} (one : Text.OneLine name)
    (spelt : t.Spelt good) :
    Keeps good fs (loopVar p span name t) (·.Sound good fs) := by
  refine (newScope_keeps p.scope .block none).bind fun sc _ => ?_
  have name := spelling.oneLine one
  refine Keeps.bind (alloc_keeps ⟨name, fun u h => ?_⟩) fun id _ => ?_
  · cases h
    exact spelt
  refine (declare_keeps sc id _).bind fun _ _ => (note_keeps ?_ ?_ ?_).bind fun _ _ => .pure ?_
  · exact fun _ => rfl
  · exact fun _ => rfl
  · exact fun _ h => { h with }
  · exact sound.scoped sc

theorem countType_keeps {low high : Ty} (left : low.Spelt good) (right : high.Spelt good) :
    Keeps good fs (countType p low high) (·.Spelt good) := by
  have int : (primitive p.table "int").Spelt good := spelt_primitive spelling sound.table rfl
  refine Keeps.get.bind fun s _ => ?_
  split
  · next t same =>
    refine .pure ?_
    split
    · exact int
    · exact Ty.Spelt.unify same left.deref right.deref
  · exact .pure int

theorem returned_keeps {value : Option Expr} (flat : ∀ e, value = some e → e.Flat)
    (implicit : Bool) :
    Keeps good fs (returned p value implicit) fun _ => True := by
  unfold returned
  split
  · exact noteReturn_keeps trivial
  · next v =>
    refine (expr_keeps spelling sound v (flat v rfl)).bind fun t spelt => ?_
    split
    · exact .pure trivial
    · refine (noteReturn_keeps spelt).bind fun _ _ => ?_
      split
      · split
        · exact Keeps.get.bind fun _ _ => requireAssignable_keeps _ _ _
        · exact .pure trivial
      · exact .pure trivial

theorem iterated_keeps {e : Expr}
    (flat : e.Flat) : Keeps good fs (iterated p e) (·.Spelt good) := by
  cases e with
  | range span low high => exact rangeExpr_keeps spelling sound span flat.1 flat.2
  | _ => exact expr_keeps spelling sound _ flat

end

mutual

theorem stmt_keeps (spelling : Spelling good) {p : Place} (sound : p.Sound good fs) {p₁ p₂ : Pos}
    {s : Stmt} : s.Lies p₁ p₂ → Keeps good fs (stmt p s) fun _ => s.Distinct
  | .block b => block_keeps spelling sound b
  | .expr _ x => (expr_keeps spelling sound _ x.2).discard
  | .decl _ d => localVar_keeps spelling sound d
  | .branch _ cond yes => by
    refine (expr_keeps spelling sound _ cond.2).discard.bind fun _ _ => ?_
    refine (block_keeps spelling sound yes).bind fun _ distinct => .pure ?_
    exact distinct
  | .branches _ cond yes _ _ no => by
    refine (expr_keeps spelling sound _ cond.2).discard.bind fun _ _ => ?_
    refine (block_keeps spelling sound yes).bind fun _ distinct => ?_
    refine (stmt_keeps spelling sound no).mono fun _ distinct' => ?_
    exact ⟨distinct, distinct'⟩
  | .loop _ _ flat body => by
    unfold stmt
    split
    · refine (expr_keeps spelling sound _ (flat _ rfl)).discard.bind fun _ _ => ?_
      exact block_keeps spelling sound body
    · exact block_keeps spelling sound body
  | @Stmt.Lies.count _ _ _ span _ name _ _ _ b _ one _ low high step body => by
    refine (expr_keeps spelling sound _ low).bind fun l left => ?_
    refine (expr_keeps spelling sound _ high).bind fun h right => ?_
    have rest : Keeps good fs (do
        let t ← countType p l h
        let inner ← loopVar p span name t
        block inner b) fun _ => b.Distinct :=
      (countType_keeps spelling sound left right).bind fun t spelt =>
        (loopVar_keeps spelling sound span one spelt).bind fun _ sound' =>
          block_keeps spelling sound' body
    split
    · exact (expr_keeps spelling sound _ (step _ rfl)).discard.bind fun _ _ => rest
    · exact rest
  | .each _ one items body => by
    refine (iterated_keeps spelling sound items.2).bind fun t spelt => ?_
    refine (loopVar_keeps spelling sound _ one ((spelt_elemType spelling spelt).typeOf _)).bind ?_
    exact fun inner sound' => block_keeps spelling sound' body
  | .ret _ _ flat _ => returned_keeps spelling sound flat _
  | .brk _ _ _ => .pure trivial
  | .cont _ _ _ => .pure trivial
  | .inject _ _ => .pure trivial

theorem block_keeps (spelling : Spelling good) {p : Place} (sound : p.Sound good fs) {p₁ p₂ : Pos}
    {b : Block} : b.Lies p₁ p₂ → Keeps good fs (block p b) fun _ => b.Distinct
  | .mk _ _ inner _ _ _ => by
    refine ⟨fun known run => ?_⟩
    obtain ⟨sc, s₁, known, leads, made, _, run⟩ :=
      (newScope_keeps p.scope .block none).first_ok known run
    obtain ⟨leads', known, all, distinct, _⟩ :=
      stmts_keep spelling (sound.scoped sc) inner known (newScope_ok made) run
    exact ⟨leads.trans leads', known, distinct, all⟩

theorem stmts_keep (spelling : Spelling good) {p : Place} (sound : p.Sound good fs) {p₁ p₂ : Pos}
    {ss : List Stmt} {s s' : State} {u : Unit} : Stmt.LieIn p₁ ss p₂ → s.Sound good fs →
    p.scope < s.info.symbols.scopes.size → stmts p ss s = .ok (u, s') →
    s.Leads s' ∧ s'.Sound good fs ∧ Stmt.DistinctAll ss ∧ (ss.flatMap Stmt.binds).Nodup ∧
      ∀ n ∈ ss.flatMap Stmt.binds, ¬ s.info.symbols.Declares p.scope n
  | .nil, known, _, run => by
    cases run
    exact ⟨.refl _, known, trivial, .nil, by simp⟩
  | @Stmt.LieIn.cons _ _ _ x xs first rest, known, isOpen, run => by
    obtain ⟨_, s₁, known₁, leads, ran, distinct, run⟩ :=
      (stmt_keeps spelling sound first).first_ok known run
    have isOpen₁ := Nat.lt_of_lt_of_le isOpen leads.symbols.scopes
    obtain ⟨leads', known', all, nodup, fresh⟩ := stmts_keep spelling sound rest known₁ isOpen₁ run
    have later : ∀ n ∈ xs.flatMap Stmt.binds, ¬ s.info.symbols.Declares p.scope n :=
      fun n member before => fresh n member (before.mono leads.symbols isOpen)
    refine ⟨leads.trans leads', known', ⟨distinct, all⟩, ?_⟩
    cases first with
    | decl _ d =>
      obtain ⟨before, after⟩ := localVar_declares spelling sound d known isOpen ran
      refine ⟨List.nodup_cons.mpr ⟨fun member => fresh _ member after, nodup⟩, fun n member => ?_⟩
      rcases List.mem_cons.mp member with rfl | member
      · exact before
      · exact later n member
    | _ => exact ⟨nodup, later⟩

end

/-! ### Functions -/

/-- Functions that lie somewhere in the text, no two at the same place. -/
structure Listed (fs : List FuncDecl) : Prop where
  lies : ∀ f ∈ fs, ∃ p q, f.Lies p q
  apart : ∀ f ∈ fs, ∀ g ∈ fs, f.info.span = g.info.span → f = g

theorem bodyParam_keeps (spelling : Spelling good) (sound : p.Sound good fs) {q : Param}
    (flat : q.Flat) : Keeps good fs (bodyParam p q) fun _ => True := by
  refine Keeps.get.bind fun s _ => ?_
  split
  · exact .pure trivial
  · refine (declare_keeps _ _ _).bind fun _ _ => ?_
    split
    · next v given =>
      refine (expr_keeps spelling sound v (flat.value v given)).bind fun t _ => ?_
      exact (symbolOf_keeps spelling _).bind fun _ _ => requireAssignable_keeps _ _ _
    · exact .pure trivial

theorem inferResult_keeps (spelling : Spelling good) (h : table.Spelt good) (st : FuncState)
    {returns : List Ty} (spelt : ∀ t ∈ returns, t.Spelt good) :
    Keeps good fs (inferResult table st returns) (·.Spelt good) := by
  unfold inferResult
  split
  · split
    · exact .pure (spelt_primitive spelling h rfl)
    · exact .pure trivial
  · refine Keeps.get.bind fun s _ => ?_
    split
    · next t same => exact .pure (Ty.Spelt.common same spelt).deref
    · exact .failType

theorem funcBody_keeps (spelling : Spelling good) (sound : p.Sound good fs) {st : FuncState}
    (lies : st.decl.Lies p₁ p₂) :
    Keeps good fs (funcBody p st) fun _ => st.decl.Distinct := by
  have rest : st.decl.Distinct → Keeps good fs (do
      unless (← get).info.results.contains st.decl.info.span do
        let t ← inferResult p.table st (← get).returns
        modifyInfo fun i => { i with results := i.results.insert st.decl.info.span t })
      fun _ => st.decl.Distinct := by
    intro distinct
    refine Keeps.get.bind fun s _ => ?_
    split
    · exact .pure distinct
    · refine Keeps.get.bind fun s known => ?_
      refine (inferResult_keeps spelling sound.table st known.returns).bind fun t spelt => ?_
      exact (noteResult_keeps _ spelt).mono fun _ _ => distinct
  refine Keeps.bind (.forM fun q member => bodyParam_keeps spelling sound (lies.params q member)) ?_
  intro _ _
  split
  · next b body =>
    obtain ⟨_, _, inner⟩ := lies.body b body
    refine (block_keeps spelling sound inner).bind fun _ distinct => rest fun b' body' => ?_
    cases body.symm.trans body'
    exact distinct
  · next body => exact rest fun b' body' => by cases body.symm.trans body'

/-- The state with a function in another phase. -/
def State.withPhase (s : State) (span : Span) (phase : Phase) : State :=
  { s with funcs := s.funcs.modify span fun st => { st with phase } }

theorem State.isActive_withPhase {s : State} {span at' : Span} {phase : Phase}
    (h : (s.withPhase span phase).isActive at') :
    at' ≠ span ∧ s.isActive at' ∨ at' = span ∧ phase = .active := by
  obtain ⟨st, found, active⟩ := h
  obtain ⟨st', was, ⟨other, rfl⟩ | ⟨same, rfl⟩⟩ := getElem?_modify_or found
  · exact .inl ⟨other, _, was, active⟩
  · exact .inr ⟨same, active⟩

variable {span : Span}

theorem State.Sound.withPhase {s : State} (sound : s.Sound good fs) {phase : Phase}
    (done : phase = .done → ∀ st, s.funcs[span]? = some st → st.decl.Distinct) :
    (s.withPhase span phase).Sound good fs := by
  refine { sound with funcs := fun at' st found => ?_ }
  obtain ⟨st', was, ⟨other, rfl⟩ | ⟨rfl, rfl⟩⟩ := getElem?_modify_or found
  · exact sound.funcs at' _ was
  · have known := sound.funcs at' _ was
    exact ⟨known.listed, known.span, known.ext, fun h => done h st' was⟩

theorem State.Leads.withPhases
    (h : (s.withPhase span .active).Leads s') : s.Leads (s'.withPhase span .done) where
  symbols := h.symbols
  funcs at' known := Std.TreeMap.mem_modify.mpr (h.funcs at' (Std.TreeMap.mem_modify.mpr known))
  classes := h.classes
  active at' active := by
    rcases isActive_withPhase active with ⟨other, active⟩ | ⟨-, impossible⟩
    · rcases isActive_withPhase (h.active at' active) with ⟨-, active⟩ | ⟨same, -⟩
      · exact active
      · exact absurd same other
    · cases impossible

theorem withReturns_keeps {ts : List Ty} (spelt : ∀ t ∈ ts, t.Spelt good) :
    Keeps good fs (modify fun s => { s with returns := ts }) fun _ => True :=
  modify_keeps fun _ sound => ⟨.of_same rfl rfl rfl, { sound with returns := spelt }⟩

theorem enterFunc_keeps (spelling : Spelling good) (h : table.Spelt good) (listed : Listed fs)
    {demand : Span → Resolver Unit} (demanded : ∀ span, Keeps good fs (demand span) fun _ => True)
    {st : FuncState} (known : st.Sound good fs span) :
    Keeps good fs (enterFunc table demand st) fun _ => st.decl.Distinct := by
  obtain ⟨_, _, lies⟩ := listed.lies st.decl known.listed
  refine Keeps.get.bind fun s sound => (withReturns_keeps (by simp)).bind fun _ _ => ?_
  refine (newScope_keeps _ _ _).bind fun sc _ => ?_
  refine (funcBody_keeps spelling ⟨h, fun st' same => ?_, demanded⟩ lies).bind fun _ distinct => ?_
  · cases same
    exact known.ext
  · exact (withReturns_keeps sound.returns).mono fun _ _ => distinct

/-- A run of a function either finds nothing to do or enters the function. -/
theorem resolveFunc_ok {n : Nat} (run : resolveFunc table (n + 1) span s = .ok (u, s')) :
    s' = s ∧ (∀ st, s.funcs[span]? = some st → st.phase ≠ .fresh) ∨
      ∃ st s₁, s.funcs[span]? = some st ∧ st.phase = .fresh ∧
        enterFunc table (resolveFunc table n) st (s.withPhase span .active) = .ok ((), s₁) ∧
        s' = s₁.withPhase span .done := by
  obtain ⟨_, _, read, run⟩ := bind_ok run
  cases read
  cases found : s.funcs[span]? with
  | none =>
    rw [found] at run
    cases run
    exact .inl ⟨rfl, fun _ h => by cases h⟩
  | some st =>
    rw [found] at run
    dsimp only at run
    split at run
    · next fresh =>
      obtain ⟨_, _, phased, run⟩ := bind_ok run
      cases phased
      obtain ⟨_, s₁, entered, run⟩ := bind_ok run
      cases run
      exact .inr ⟨st, s₁, rfl, fresh, entered, rfl⟩
    · next busy =>
      cases run
      refine .inl ⟨rfl, fun st' same => ?_⟩
      cases same
      exact busy

theorem resolveFunc_keeps (spelling : Spelling good) (h : table.Spelt good) (listed : Listed fs)
    (n : Nat) (span : Span) :
    Keeps good fs (resolveFunc table n span) fun _ => True := by
  induction n generalizing span with
  | zero => exact .pure trivial
  | succ n ih =>
    refine ⟨fun {s _ _} sound run => ?_⟩
    rcases resolveFunc_ok run with ⟨rfl, -⟩ | ⟨st, s₁, found, -, entered, rfl⟩
    · exact ⟨.refl _, sound, trivial⟩
    · have known := sound.funcs span st found
      have active : (s.withPhase span .active).Sound good fs :=
        sound.withPhase fun h => by cases h
      obtain ⟨leads, sound₁, distinct⟩ :=
        (enterFunc_keeps spelling h listed ih known).run active entered
      refine ⟨leads.withPhases, sound₁.withPhase fun _ st' found' => ?_, trivial⟩
      have known' := sound₁.funcs span st' found'
      have same := listed.apart _ known'.listed _ known.listed (known'.span.trans known.span.symm)
      exact same ▸ distinct

theorem resolveFunc_distinct (spelling : Spelling good) (h : table.Spelt good) (listed : Listed fs)
    {n : Nat} {f : FuncDecl} (member : f ∈ fs) (sound : s.Sound good fs)
    (noted : f.info.span ∈ s.funcs) (idle : ∀ span, ¬ s.isActive span)
    (run : resolveFunc table (n + 1) f.info.span s = .ok (u, s')) : f.Distinct := by
  have own : ∀ {st}, s.funcs[f.info.span]? = some st → st.decl = f := by
    intro st found
    have known := sound.funcs _ st found
    exact listed.apart _ known.listed _ member known.span
  rcases resolveFunc_ok run with ⟨-, busy⟩ | ⟨st, s₁, found, -, entered, -⟩
  · obtain ⟨st, found⟩ := mem_iff_found.mp noted
    have known := sound.funcs _ st found
    cases phase : st.phase with
    | fresh => exact absurd phase (busy st found)
    | active => exact absurd ⟨st, found, phase⟩ (idle f.info.span)
    | done => exact own found ▸ known.done phase
  · have active : (s.withPhase f.info.span .active).Sound good fs :=
      sound.withPhase fun h => by cases h
    obtain ⟨-, -, distinct⟩ := (enterFunc_keeps spelling h listed
      (resolveFunc_keeps spelling h listed n) (sound.funcs _ st found)).run active entered
    exact own found ▸ distinct

/-! ### The third pass -/

theorem enumBody_keeps (spelling : Spelling good) (sound : p.Sound good fs) {d : EnumDecl}
    (flat : ∀ m ∈ d.members, m.Flat) : Keeps good fs (enumBody p d) fun _ => True := by
  refine Keeps.get.bind fun s _ => .forM fun m member => ?_
  split
  · next v given =>
    exact (expr_keeps spelling (sound.scoped _) v ((flat m member).value v given)).discard
  · exact .pure trivial

theorem itemBody_keeps (spelling : Spelling good) (sound : p.Sound good fs) {i : Item}
    (lies : i.Lies p₁ p₂) : Keeps good fs (itemBody p i) fun _ => True := by
  cases lies with
  | var _ _ d =>
    refine Keeps.get.bind fun s _ => ?_
    split
    · exact varValue_keeps spelling sound d.value _
    · exact .pure trivial
  | func _ _ => exact sound.demand _
  | enum _ d => exact enumBody_keeps spelling sound d.members
  | inject _ _ _ => exact .pure trivial

theorem itemBodies_keep (spelling : Spelling good) (sound : p.Sound good fs) {items : List Item}
    (lies : Chain Item.Lies p₁ items p₂) :
    ∀ i ∈ items, Keeps good fs (itemBody p i) fun _ => True := by
  intro i member
  obtain ⟨_, _, lies⟩ := lies.each member
  exact itemBody_keeps spelling sound lies

mutual

theorem body_keeps (spelling : Spelling good) {p : Place} (sound : p.Sound good fs)
    {p₁ p₂ : Pos} {d : Decl} : d.Lies p₁ p₂ → Keeps good fs (body p d) fun _ => True
  | .item i => itemBody_keeps spelling sound i
  | .includes _ _ _ | .assume _ _ _ _ | .attributeDef _ _ _ _ => .pure trivial
  | .scope _ _ one _ inner _ _ => by
    refine (namespaceScope_keeps spelling p.scope one _ _).bind fun members _ => ?_
    exact bodies_keep spelling (sound.scoped members) inner
  | .cls _ _ _ _ _ items _ => by
    refine Keeps.get.bind fun s _ => ?_
    split
    · refine (symbolOf_keeps spelling _).bind fun sym _ => .forM ?_
      exact itemBodies_keep spelling (sound.scoped _) items
    · exact .pure trivial
  | .abstraction _ _ _ _ _ _ => .forM fun f _ => sound.demand f.info.span
  | .refurbish _ _ _ _ _ => .forM fun f _ => sound.demand f.info.span

theorem bodies_keep (spelling : Spelling good) {p : Place} (sound : p.Sound good fs)
    {p₁ p₂ : Pos} {ds : List Decl} : Decl.LieIn p₁ ds p₂ →
    Keeps good fs (bodies p ds) fun _ => True
  | .nil => .pure trivial
  | .cons first rest =>
    (body_keeps spelling sound first).bind fun _ _ => bodies_keep spelling sound rest

end

/-- Asking for a function at a place resolves it, as long as no function is being resolved. -/
def Place.Resolves (good : String → Prop) (fs : List FuncDecl) (p : Place) : Prop :=
  ∀ f ∈ fs, ∀ s s', s.Sound good fs → f.info.span ∈ s.funcs → (∀ span, ¬ s.isActive span) →
    p.demand f.info.span s = .ok ((), s') → f.Distinct

theorem Place.Resolves.scoped {p : Place} (h : p.Resolves good fs) (sc : ScopeId) :
    Place.Resolves good fs { p with scope := sc } := h

/-- A state before the third pass reaches functions of the file. -/
structure State.Ready (good : String → Prop) (fs gs : List FuncDecl) (classes : List Span)
    (s : State) : Prop where
  sound : s.Sound good fs
  idle : ∀ span, ¬ s.isActive span
  knows : s.Knows gs classes
  listed : ∀ f ∈ gs, f ∈ fs

theorem State.Ready.mono {gs gs' : List FuncDecl} {classes classes' : List Span}
    (h : s.Ready good fs gs classes) (leads : s.Leads s') (sound : s'.Sound good fs)
    (fewer : ∀ f ∈ gs', f ∈ gs) (fewer' : ∀ span ∈ classes', span ∈ classes) :
    s'.Ready good fs gs' classes' where
  sound := sound
  idle span active := h.idle span (leads.active span active)
  knows := ⟨fun f member => leads.funcs _ (h.knows.funcs f (fewer f member)),
    fun span member => leads.classes _ (h.knows.classes span (fewer' span member))⟩
  listed f member := h.listed f (fewer f member)

theorem demands_distinct {p : Place} (resolves : p.Resolves good fs) (sound : p.Sound good fs)
    {gs : List FuncDecl} {classes : List Span} (ready : s.Ready good fs gs classes)
    (run : gs.forM (fun f => p.demand f.info.span) s = .ok (u, s')) : ∀ f ∈ gs, f.Distinct := by
  intro f member
  obtain ⟨s₁, s₂, sound₁, leads, ran, -⟩ :=
    Keeps.forM_ok (fun f _ => sound.demand f.info.span) ready.sound run member
  have ready₁ := ready.mono leads sound₁ (fun _ h => h) (fun _ h => h)
  exact resolves f (ready.listed f member) s₁ s₂ sound₁ (ready₁.knows.funcs f member) ready₁.idle ran

theorem itemBody_distinct {p : Place} (resolves : p.Resolves good fs) {i : Item}
    {classes : List Span} (ready : s.Ready good fs i.funcs classes)
    (run : itemBody p i s = .ok ((), s')) : ∀ f ∈ i.funcs, f.Distinct := by
  cases i with
  | func d =>
    intro f member
    obtain rfl := List.mem_singleton.mp member
    exact resolves f (ready.listed f member) s s' ready.sound (ready.knows.funcs f member)
      ready.idle run
  | var d => exact fun _ h => by cases h
  | enum d => exact fun _ h => by cases h
  | inject info text => exact fun _ h => by cases h

mutual

theorem body_distinct (spelling : Spelling good) {p : Place} (resolves : p.Resolves good fs)
    (sound : p.Sound good fs) {p₁ p₂ : Pos} {d : Decl} {s s' : State} {u : Unit} :
    d.Lies p₁ p₂ → s.Ready good fs d.funcs d.classes → body p d s = .ok (u, s') →
    ∀ f ∈ d.funcs, f.Distinct
  | .item _, ready, run => itemBody_distinct resolves ready run
  | .includes _ _ _, _, _ | .assume _ _ _ _, _, _ | .attributeDef _ _ _ _, _, _ =>
    fun _ h => by cases h
  | .scope _ _ one _ inner _ _, ready, run => by
    obtain ⟨members, _, sound₁, leads, _, _, run⟩ :=
      (namespaceScope_keeps spelling p.scope one _ _).first_ok ready.sound run
    have ready₁ := ready.mono leads sound₁ (fun _ h => h) (fun _ h => h)
    exact bodies_distinct spelling (resolves.scoped members) (sound.scoped members) inner ready₁ run
  | .cls _ _ _ _ _ items _, ready, run => by
    obtain ⟨_, _, read, run⟩ := bind_ok run
    cases read
    obtain ⟨id, known⟩ := Option.isSome_iff_exists.mp (ready.knows.classes _ List.mem_cons_self)
    rw [known] at run
    obtain ⟨sym, _, sound₁, leads, _, _, run⟩ :=
      (symbolOf_keeps spelling id).first_ok ready.sound run
    intro f member
    obtain ⟨i, inside, member⟩ := List.mem_flatMap.mp member
    obtain ⟨s₁, s₂, sound₂, leads', ran, -⟩ := Keeps.forM_ok
      (itemBodies_keep spelling (sound.scoped _) items) sound₁ run inside
    have ready₂ := ready.mono (leads.trans leads') sound₂
      (fun g h => List.mem_flatMap.mpr ⟨i, inside, h⟩) (fun _ h => h)
    exact itemBody_distinct (resolves.scoped _) ready₂ ran f member
  | .abstraction _ _ _ _ _ _, ready, run => demands_distinct resolves sound ready run
  | .refurbish _ _ _ _ _, ready, run => demands_distinct resolves sound ready run

theorem bodies_distinct (spelling : Spelling good) {p : Place} (resolves : p.Resolves good fs)
    (sound : p.Sound good fs) {p₁ p₂ : Pos} {ds : List Decl} {s s' : State} {u : Unit} :
    Decl.LieIn p₁ ds p₂ → s.Ready good fs (Decl.funcsOf ds) (Decl.classesOf ds) →
    bodies p ds s = .ok (u, s') → ∀ f ∈ Decl.funcsOf ds, f.Distinct
  | .nil, _, _ => fun _ h => by cases h
  | .cons first rest, ready, run => by
    obtain ⟨_, s₁, sound₁, leads, ran, _, run⟩ :=
      (body_keeps spelling sound first).first_ok ready.sound run
    have here := ready.mono (.refl _) ready.sound (fun _ h => List.mem_append_left _ h)
      (fun _ h => List.mem_append_left _ h)
    have there := ready.mono leads sound₁ (fun _ h => List.mem_append_right _ h)
      (fun _ h => List.mem_append_right _ h)
    intro f member
    rcases List.mem_append.mp member with member | member
    · exact body_distinct spelling resolves sound first here ran f member
    · exact bodies_distinct spelling resolves sound rest there run f member

end

/-! ### All passes -/

theorem FuncsLie.listed {p q : Pos} {gs : List FuncDecl} (h : FuncsLie p gs q) : Listed gs :=
  ⟨h.lies, fun f left g right same => h.spread.inj left right (by rw [FuncDecl.offset, same]; rfl)⟩

theorem State.sound_initial : State.Sound good fs {} := by
  refine ⟨⟨?_, ?_, ?_, ?_, ?_, ?_⟩, by simp, by simp, ?_⟩ <;> simp

end Resolution

open Resolution

/-- When a file is resolved, all that can be written in C++ has good names, and no block of its
functions declares a name twice. -/
theorem File.resolve_sound {good : String → Prop} (spelling : Spelling good) (h : table.Spelt good)
    {file : File} {p q : Pos} (lies : Decl.LieIn p file.decls q) {info : Info}
    (run : file.resolve table = .ok info) :
    info.Spelt good ∧ ∀ f ∈ file.funcs, f.Distinct := by
  have listed : Listed file.funcs := FuncsLie.listed lies.funcs
  obtain ⟨s, passed, rfl⟩ : ∃ s, passes table file {} = .ok ((), s) ∧ s.info = info := by
    change (passes table file {} >>= fun r => pure r.2.info) = _ at run
    cases done : passes table file {} with
    | error e =>
      rw [done] at run
      cases run
    | ok r =>
      rw [done] at run
      cases run
      exact ⟨r.2, rfl, rfl⟩
  have place : Place.Sound good file.funcs
      { table, scope := SymbolTable.global, demand := fun _ => pure () } :=
    ⟨h, fun _ same => (by cases same), fun _ => .pure trivial⟩
  obtain ⟨_, s₁, sound₁, leads₁, declared, _, passed⟩ :=
    (declareDecls_keeps spelling _ lies fun _ h => h).first_ok State.sound_initial passed
  obtain ⟨_, s₂, sound₂, leads₂, signed, _, passed⟩ :=
    (signatures_keeps spelling place lies fun _ h => h).first_ok sound₁ passed
  obtain ⟨_, _, read, passed⟩ := bind_ok passed
  cases read
  have resolver := resolveFunc_keeps spelling h listed (s₂.funcs.size + 1)
  have place' : Place.Sound good file.funcs
      { table, scope := SymbolTable.global, demand := resolveFunc table (s₂.funcs.size + 1) } :=
    ⟨h, fun _ same => (by cases same), resolver⟩
  refine ⟨((bodies_keep spelling place' lies).run sound₂ passed).2.1.info, ?_⟩
  have early := (declareDecls_knows spelling State.sound_initial lies (fun _ h => h) declared).mono
    leads₂
  have late := signatures_knows spelling place sound₁ lies (fun _ h => h) signed
  refine bodies_distinct spelling ?_ place' lies ⟨sound₂, ?_, ⟨?_, early.classes⟩, ?_⟩ passed
  · intro f member s s' sound noted idle run
    exact resolveFunc_distinct spelling h listed member sound noted idle run
  · intro span active
    obtain ⟨st, found, -⟩ := (leads₁.trans leads₂).active span active
    simp at found
  · intro f member
    exact (Decl.mem_notesOf file.decls member).elim (early.funcs f) (late.funcs f)
  · exact fun _ member => member

end TastyLang
