import TastyLang.Proofs.Resolution.Frames
import TastyLang.Proofs.Resolution.Laying
import TastyLang.Proofs.Resolution.Meaning

/-!
# What the second pass grants

The second pass enters the functions of abstract bindings into the tables of capabilities and those of
refurbish declarations into the list of refurbished types, each in the order of the text, and gives
variables the types that are written for them (`signatures_grant`).
-/

namespace TastyLang

mutual

/-- The functions of abstract bindings with the names of these. -/
def Decl.bound : Decl → List (String × FuncDecl)
  | .scope _ _ ds => Decl.boundOf ds
  | .abstraction _ name _ fs => fs.map fun f => (name, f)
  | .item _ | .includes _ _ _ _ | .assume _ _ _ | .cls _ _ _ _ | .refurbish _ _ _
  | .attributeDef _ _ _ _ => []

def Decl.boundOf : List Decl → List (String × FuncDecl)
  | [] => []
  | d :: ds => d.bound ++ Decl.boundOf ds

end

mutual

/-- The functions of refurbish declarations with the types that they are added to. -/
def Decl.refurbs : Decl → List (TypeExpr × FuncDecl)
  | .scope _ _ ds => Decl.refurbsOf ds
  | .refurbish _ target fs => fs.map fun f => (target, f)
  | .item _ | .includes _ _ _ _ | .assume _ _ _ | .cls _ _ _ _ | .abstraction _ _ _ _
  | .attributeDef _ _ _ _ => []

def Decl.refurbsOf : List Decl → List (TypeExpr × FuncDecl)
  | [] => []
  | d :: ds => d.refurbs ++ Decl.refurbsOf ds

end

namespace Resolution

variable {table : Table} {file : File} {s s' s'' : State} {p : Place}

/-! ### Tables -/

/-- The extension that a declaration makes of one of its functions. -/
structure Extension.Adds (e : Extension) (key : String) (f : FuncDecl) : Prop where
  owner : e.owner = key
  name : e.name = f.name
  cname : e.cname = extensionName key f.name
  decl : e.decl = f.info.span

/-- The capabilities that functions of a binding give, the last function first. -/
structure Capabilities.Lists (c : Capabilities) (binding : String) (fs : List FuncDecl) : Prop where
  name : c.name = binding
  forwarded : c.forwarded =
    ((fs.filter (·.body.isNone)).map fun f => (f.name, f.info.span)).reverse
  added : List.Forall₂ (fun x f => x.1 = f.name ∧ Extension.Adds x.2 binding f) c.added
    (fs.filter fun f => !f.body.isNone).reverse

def boundTo (binding : String) (bs : List (String × FuncDecl)) : List FuncDecl :=
  (bs.filter fun b => b.1 == binding).map Prod.snd

theorem boundTo_append (binding : String) (bs bs' : List (String × FuncDecl)) :
    boundTo binding (bs ++ bs') = boundTo binding bs ++ boundTo binding bs' := by
  simp [boundTo]

/-- The bindings of some names have the capabilities that their functions give. -/
def State.Grants (names : List String) (bs : List (String × FuncDecl)) (s : State) : Prop :=
  ∀ binding, if binding ∈ names then
      ∃ c, s.info.capabilities.lookup binding = some c ∧ Capabilities.Lists c binding (boundTo binding bs)
    else s.info.capabilities.lookup binding = none

/-- What steps of the second pass enter: functions of bindings and extensions of types. They leave all
variables alone but some. -/
structure State.Enlists (own : List VarDecl) (bs : List (String × FuncDecl))
    (es : List (String × String × Extension)) (s s' : State) : Prop where
  grants : ∀ names before, s.Grants names before → s'.Grants names (before ++ bs)
  refurbished : s'.refurbished = es ++ s.refurbished
  size : s.info.symbols.symbols.size ≤ s'.info.symbols.symbols.size
  symbol : ∀ id < s.info.symbols.symbols.size, (s.info.symbols.symbol id).kind = .var →
    (∀ d ∈ own, (s.info.symbols.symbol id).origin ≠ .var d.info.span) →
    s'.info.symbols.symbol id = s.info.symbols.symbol id

namespace State.Enlists

variable {own own' : List VarDecl} {bs bs' : List (String × FuncDecl)}
  {es es' : List (String × String × Extension)}

theorem of_same (capabilities : s'.info.capabilities = s.info.capabilities)
    (refurbished : s'.refurbished = s.refurbished)
    (size : s.info.symbols.symbols.size ≤ s'.info.symbols.symbols.size)
    (symbol : ∀ id < s.info.symbols.symbols.size, (s.info.symbols.symbol id).kind = .var →
      (∀ d ∈ own, (s.info.symbols.symbol id).origin ≠ .var d.info.span) →
      s'.info.symbols.symbol id = s.info.symbols.symbol id) : s.Enlists own [] [] s' := by
  refine ⟨fun names before granted => ?_, refurbished, size, symbol⟩
  rw [List.append_nil]
  unfold State.Grants at granted ⊢
  rwa [capabilities]

theorem refl (s : State) : s.Enlists own [] [] s :=
  .of_same rfl rfl (Nat.le_refl _) fun _ _ _ _ => rfl

theorem trans (h : s.Enlists own bs es s') (h' : s'.Enlists own' bs' es' s'') :
    s.Enlists (own ++ own') (bs ++ bs') (es' ++ es) s'' where
  grants names before granted := by
    rw [← List.append_assoc]
    exact h'.grants names _ (h.grants names before granted)
  refurbished := by rw [h'.refurbished, h.refurbished, List.append_assoc]
  size := Nat.le_trans h.size h'.size
  symbol id lt kind away := by
    have same := h.symbol id lt kind fun d member => away d (List.mem_append_left _ member)
    rw [← same] at kind ⊢
    refine h'.symbol id (Nat.lt_of_lt_of_le lt h.size) kind fun d member => ?_
    rw [same]
    exact away d (List.mem_append_right _ member)

theorem after (h : s.Enlists [] [] [] s') (h' : s'.Enlists own bs es s'') : s.Enlists own bs es s'' := by
  have whole := h.trans h'
  rwa [List.append_nil] at whole

theorem before (h : s.Enlists own bs es s') (h' : s'.Enlists [] [] [] s'') : s.Enlists own bs es s'' := by
  have whole := h.trans h'
  rwa [List.append_nil, List.append_nil] at whole

end State.Enlists

/-! ### Steps that enter nothing -/

/-- Every run of `m` leaves the tables and the variables alone. -/
structure Leaves {α : Type} (m : Resolver α) : Prop where
  run {s a s'} : m s = .ok (a, s') → s.Enlists [] [] [] s'

namespace Leaves

variable {α β : Type} {m : Resolver α}

theorem pure {a : α} : Leaves (pure a) := by
  refine ⟨fun {s a s'} run => ?_⟩
  cases run
  exact .refl s

theorem bind {f : α → Resolver β} (first : Leaves m) (rest : ∀ a, Leaves (f a)) : Leaves (m >>= f) := by
  refine ⟨fun {s a s'} run => ?_⟩
  obtain ⟨a, s₁, ran, run⟩ := bind_ok run
  exact (first.run ran).trans ((rest a).run run)

theorem map {f : α → β} (h : Leaves m) : Leaves (f <$> m) := by
  rw [map_eq_pure_bind]
  exact h.bind fun _ => pure

theorem get : Leaves (get : Resolver State) := by
  refine ⟨fun {s a s'} run => ?_⟩
  cases run
  exact .refl s

theorem forM {f : α → Resolver Unit} {xs : List α} (each : ∀ x, Leaves (f x)) : Leaves (xs.forM f) := by
  induction xs with
  | nil => exact pure
  | cons x xs ih => exact (each x).bind fun _ => ih

theorem modify {f : State → State} (capabilities : ∀ s, (f s).info.capabilities = s.info.capabilities)
    (refurbished : ∀ s, (f s).refurbished = s.refurbished)
    (symbols : ∀ s, (f s).info.symbols = s.info.symbols) : Leaves (modify f) := by
  refine ⟨fun {s a s'} run => ?_⟩
  cases run
  refine .of_same (capabilities s) (refurbished s) (Nat.le_of_eq ?_) fun id _ _ _ => ?_
  · rw [symbols]
  · rw [symbols]

end Leaves

theorem typeExpr_leaves (te : TypeExpr) : Leaves (typeExpr p te) := by
  refine ⟨fun {s t s'} run => ?_⟩
  cases (typeExpr_run p te s).symm.trans run
  exact .of_same rfl rfl (Nat.le_refl _) fun _ _ _ _ => rfl

theorem alloc_leaves (x : Symbol) : Leaves (alloc x) := by
  refine ⟨fun {s id s'} run => ?_⟩
  cases (alloc_run x s).symm.trans run
  have size : (s.info.symbols.alloc x).1.symbols.size = s.info.symbols.symbols.size + 1 :=
    Array.size_push x
  refine .of_same rfl rfl ?_ fun id lt _ _ => ?_
  · exact Nat.le_trans (Nat.le_succ _) (Nat.le_of_eq size.symm)
  · exact (s.info.symbols.symbol_alloc x id).trans (if_neg (Nat.ne_of_lt lt))

theorem funcSignature_leaves (f : FuncDecl) : Leaves (funcSignature p f) := by
  have note : ∀ result : Option Ty, Leaves (noteResult? f.info.span result) := by
    intro result
    cases result with
    | none => exact .pure
    | some t => exact .modify (fun _ => rfl) (fun _ => rfl) fun _ => rfl
  unfold funcSignature
  refine (Leaves.forM fun q => ?_).bind fun _ => ?_
  · refine (typeExpr_leaves q.type).bind fun t => (alloc_leaves _).bind fun id => ?_
    exact .modify (fun _ => rfl) (fun _ => rfl) fun _ => rfl
  · split
    · exact (typeExpr_leaves _).map.bind note
    · split
      · exact Leaves.pure.bind note
      · exact Leaves.pure.bind note

theorem named_leaves (t : Ty) (binding : String) : Leaves (named t binding) := by
  unfold named
  split
  · refine Leaves.get.bind fun s => Leaves.bind ?_ fun _ => .pure
    refine Leaves.get.bind fun s => Leaves.bind ?_ fun _ => .pure
    exact .modify (fun _ => rfl) (fun _ => rfl) fun _ => rfl
  · exact .pure

theorem baseSignature_leaves (number : Nat) (base : TypeExpr) : Leaves (baseSignature p number base) := by
  refine (typeExpr_leaves base).bind fun t => ?_
  split
  · exact .modify (fun _ => rfl) (fun _ => rfl) fun _ => rfl
  · exact .pure

theorem addExtension_leaves (e : Extension) : Leaves (addExtension e) := by
  refine Leaves.bind ?_ fun _ => ?_
  · exact .modify (fun _ => rfl) (fun _ => rfl) fun _ => rfl
  · exact .modify (fun _ => rfl) (fun _ => rfl) fun _ => rfl

variable {u : Unit}

theorem setType_leaves {id : SymbolId} {t : Ty} (other : (s.info.symbols.symbol id).kind ≠ .var)
    (run : setType id t s = .ok (u, s')) :
    s.Enlists [] [] [] s' := by
  cases run
  have size : (s.info.symbols.modifySymbol id fun x => { x with type := some t }).symbols.size =
    s.info.symbols.symbols.size := Array.size_modify
  refine .of_same rfl rfl (Nat.le_of_eq size.symm) fun i _ kind _ => ?_
  change (SymbolTable.modifySymbol _ _ _).symbol i = _
  rw [SymbolTable.symbol_modifySymbol, if_neg]
  rintro ⟨rfl, -⟩
  exact other kind

/-! ### Functions of bindings -/

variable {binding : String}

theorem modifyCapabilities_run {f : Capabilities → Capabilities}
    (run : modifyCapabilities binding f s = .ok (u, s')) :
    (∀ other, s'.info.capabilities.lookup other = if binding = other then
      (s.info.capabilities.lookup other).map f else s.info.capabilities.lookup other) ∧
      s'.refurbished = s.refurbished ∧ s'.info.symbols = s.info.symbols := by
  cases run
  dsimp only
  cases found : s.info.capabilities.lookup binding with
  | none =>
    refine ⟨fun other => ?_, rfl, rfl⟩
    by_cases same : binding = other
    · rw [if_pos same, ← same]
      exact found.trans (by rw [found]; rfl)
    · rw [if_neg same]
  | some c =>
    refine ⟨fun other => ?_, rfl, rfl⟩
    rw [List.lookup_cons]
    by_cases same : binding = other
    · subst same
      simp [found]
    · have apart : (other == binding) = false := beq_eq_false_iff_ne.mpr fun h => same h.symm
      rw [apart, if_neg same]

theorem modifyCapabilities_enlists {g : Capabilities → Capabilities}
    {l : List FuncDecl} (lists : ∀ c before, Capabilities.Lists c binding before →
      Capabilities.Lists (g c) binding (before ++ l))
    (run : modifyCapabilities binding g s = .ok (u, s')) :
    s.Enlists [] (l.map fun f => (binding, f)) [] s' := by
  obtain ⟨lookup, refurbished, symbols⟩ := modifyCapabilities_run run
  refine ⟨fun names before granted other => ?_, refurbished, ?_, fun id _ _ _ => by rw [symbols]⟩
  · have here := granted other
    rw [lookup, boundTo_append]
    have own : boundTo other (l.map fun f => (binding, f)) = if binding = other then l else [] := by
      by_cases same : binding = other
      · simp [boundTo, same, List.filter_map, Function.comp_def]
      · simp [boundTo, same, List.filter_map, Function.comp_def]
    rw [own]
    by_cases same : binding = other
    · subst same
      rw [if_pos rfl, if_pos rfl]
      split
      · next known =>
        rw [if_pos known] at here
        obtain ⟨c, found, listed⟩ := here
        exact ⟨g c, by rw [found]; rfl, lists c _ listed⟩
      · next unknown =>
        rw [if_neg unknown] at here
        rw [here]
        rfl
    · rw [if_neg same, if_neg same, List.append_nil]
      exact here
  · exact Nat.le_of_eq (by rw [symbols])

theorem bindingFunc_enlists {self : Ty} {f : FuncDecl}
    (run : bindingFunc p binding self f s = .ok (u, s')) :
    s.Enlists [] [(binding, f)] [] s' := by
  obtain ⟨_, s₁, signed, run⟩ := bind_ok run
  refine ((funcSignature_leaves f).run signed).after ?_
  split at run
  · next forwarded =>
    refine modifyCapabilities_enlists (l := [f]) (fun c before lists => ?_) run
    refine { lists with forwarded := ?_, added := ?_ }
    · simp [lists.forwarded, forwarded]
    · simpa [forwarded] using lists.added
  · next added =>
    obtain ⟨_, s₂, capable, run⟩ := bind_ok run
    refine (modifyCapabilities_enlists (l := [f]) (fun c before lists => ?_) capable).before
      ((addExtension_leaves _).run run)
    refine { lists with forwarded := ?_, added := ?_ }
    · simp [lists.forwarded, added]
    · have own : [f].filter (fun f => !f.body.isNone) = [f] := by
        rw [List.filter_cons, eq_false_of_ne_true added]
        rfl
      rw [List.filter_append, List.reverse_append, own]
      exact .cons ⟨rfl, rfl, rfl, rfl, rfl⟩ lists.added

theorem forM_enlists {α : Type} {f : α → Resolver Unit} {xs : List α} {own : α → List VarDecl}
    {bs : α → List (String × FuncDecl)}
    (each : ∀ x ∈ xs, ∀ {s₁ s₂ : State}, f x s₁ = .ok ((), s₂) → s₁.Enlists (own x) (bs x) [] s₂)
    (run : xs.forM f s = .ok (u, s')) : s.Enlists (xs.flatMap own) (xs.flatMap bs) [] s' := by
  induction xs generalizing s with
  | nil =>
    cases run
    exact .refl _
  | cons x xs ih =>
    obtain ⟨_, s₁, first, rest⟩ := bind_ok run
    have here := each x List.mem_cons_self first
    have more : s₁.Enlists _ _ [] s' := ih (fun y member => each y (List.mem_cons_of_mem _ member)) rest
    exact here.trans more

theorem named_symbols {t self : Ty} (run : named t binding s = .ok (self, s')) :
    s'.info.symbols = s.info.symbols := by
  obtain ⟨m, same, run⟩ := exists_step run
  unfold named at same
  split at same
  · subst same
    cases run
    rfl
  · subst same
    cases run
    rfl

variable {fs : List FuncDecl} {target : TypeExpr}

theorem abstractionSignature_enlists {name : String}
    (formed : s.Formed file) (bared : s.Bared file) (inside : p.scope < s.info.symbols.scopes.size)
    (stands : ∃ id, s.info.symbols.lookupLocal? p.scope name = some id ∧
      (s.info.symbols.symbol id).kind = .abstraction)
    (run : abstractionSignature p name target fs s = .ok (u, s')) :
    s.Enlists [] (fs.map fun f => (name, f)) [] s' := by
  obtain ⟨t, s₁, s₂, self, s₃, id, s₄, m, read, -, -, capable, -, made, -, kind, typed, -, -, -,
    run⟩ := abstractionSignature_steps formed bared inside stands run
  have aimed : s₁.Enlists [] [] [] s₂ := by
    refine modifyCapabilities_enlists (l := []) (fun c before lists => ?_) capable
    rw [List.append_nil]
    exact { lists with }
  have other : (s₃.info.symbols.symbol id).kind ≠ .var := by
    rw [named_symbols made, kind]
    exact nofun
  have funcs : s₄.Enlists (fs.flatMap fun _ => []) (fs.flatMap fun f => [(name, f)]) [] s' :=
    forM_enlists (fun f _ _ _ turn => bindingFunc_enlists turn) run
  rw [List.flatMap_eq_nil_iff.mpr fun _ _ => rfl, ← List.map_eq_flatMap] at funcs
  exact ((typeExpr_leaves target).run read).after (aimed.after
    (((named_leaves t name).run made).after ((setType_leaves other typed).after funcs)))

/-! ### Functions of types -/

/-- A refurbished type is listed with the text that its target stands for. -/
def State.Refurbishes (s : State) (x : String × String × Extension) (r : TypeExpr × FuncDecl) : Prop :=
  ∃ t, s.info.typeExprs[r.1.span]? = some t ∧ x.1 = t.text ∧ x.2.1 = r.2.name ∧
    Extension.Adds x.2.2 r.1.text r.2

theorem refurbishFuncs_enlists {t : Ty}
    (run : (fs.forM fun f => (do
      noteFunc f { decl := f, scope := p.home }
      funcSignature p f
      let e : Extension :=
        ⟨target.text, f.name, extensionName target.text f.name, f.info.span, .reference t false⟩
      modify fun s => { s with refurbished := (t.text, f.name, e) :: s.refurbished }
      addExtension e : Resolver Unit)) s = .ok (u, s')) :
    ∃ es, s.Enlists [] [] es s' ∧ List.Forall₂ (fun x f => x.1 = t.text ∧ x.2.1 = f.name ∧
      Extension.Adds x.2.2 target.text f) es fs.reverse := by
  induction fs generalizing s with
  | nil =>
    cases run
    exact ⟨[], .refl _, .nil⟩
  | cons f fs ih =>
    obtain ⟨_, s₁, first, rest⟩ := bind_ok run
    obtain ⟨es, enlists, listed⟩ := ih rest
    obtain ⟨_, s₂, noted, first⟩ := bind_ok first
    obtain ⟨_, s₃, signed, first⟩ := bind_ok first
    obtain ⟨_, s₄, pushed, first⟩ := bind_ok first
    have quiet : s.Enlists [] [] [] s₂ := by
      cases noted
      exact .of_same rfl rfl (Nat.le_refl _) fun _ _ _ _ => rfl
    let e : Extension :=
      ⟨target.text, f.name, extensionName target.text f.name, f.info.span, .reference t false⟩
    have push : s₃.Enlists [] [] [(t.text, f.name, e)] s₄ := by
      cases pushed
      refine ⟨fun names before granted => ?_, rfl, Nat.le_refl _, fun _ _ _ _ => rfl⟩
      rw [List.append_nil]
      exact granted
    have here : s.Enlists [] [] [(t.text, f.name, e)] s₁ :=
      quiet.after (((funcSignature_leaves f).run signed).after
        (push.before ((addExtension_leaves e).run first)))
    have whole : s.Enlists ([] ++ []) ([] ++ []) (es ++ [(t.text, f.name, e)]) s' := here.trans enlists
    refine ⟨es ++ [(t.text, f.name, e)], whole, ?_⟩
    rw [List.reverse_cons]
    exact List.rel_append listed (.cons ⟨rfl, rfl, rfl, rfl, rfl, rfl⟩ .nil)

/-! ### Variables -/

/-- The variable has the type that is written for it. -/
def State.Typed (s : State) (d : VarDecl) : Prop :=
  ∃ te id t, d.type = some te ∧ s.info.vars[d.info.span]? = some id ∧
    id < s.info.symbols.symbols.size ∧ s.info.typeExprs[te.span]? = some t ∧
    (s.info.symbols.symbol id).type = some (d.storage.typeOf t)

theorem varSignature_enlists {d : VarDecl} (rooted : s.Rooted)
    (run : varSignature p d s = .ok (u, s')) : s.Enlists [d] [] [] s' := by
  unfold varSignature at run
  cases written : d.type with
  | none =>
    rw [written] at run
    cases run
    exact .refl s
  | some te =>
    rw [written] at run
    obtain ⟨t, s₁, read, run⟩ := bind_ok run
    cases (typeExpr_run p te s).symm.trans read
    refine ((typeExpr_leaves te).run read).after ?_
    obtain ⟨_, _, got, run⟩ := bind_ok run
    cases got
    have same : (s.noting (te.notes (s.nameType p.table p.scope))).info.vars = s.info.vars := rfl
    rw [same] at run
    cases found : s.info.vars[d.info.span]? with
    | none =>
      rw [found] at run
      cases run
      exact .refl _
    | some id =>
      rw [found] at run
      cases run
      obtain ⟨-, origin⟩ := rooted _ _ found
      refine .of_same rfl rfl (Nat.le_of_eq Array.size_modify.symm) fun i _ _ away => ?_
      change (SymbolTable.modifySymbol _ _ _).symbol i = _
      rw [SymbolTable.symbol_modifySymbol, if_neg]
      rintro ⟨rfl, -⟩
      exact away d (List.mem_singleton_self _) origin

theorem varSignature_types {d : VarDecl} {te : TypeExpr} (written : d.type = some te)
    (formed : s.Formed file) (stands : d.info.span ∈ s.info.vars)
    (run : varSignature p d s = .ok (u, s')) : s'.Typed d := by
  unfold varSignature at run
  rw [written] at run
  obtain ⟨t, s₁, read, run⟩ := bind_ok run
  obtain ⟨_, _, got, run⟩ := bind_ok run
  cases got
  obtain ⟨id, found⟩ := mem_iff_found.mp stands
  obtain ⟨lt, -⟩ := formed.vars _ _ found
  have same : s₁.info.vars = s.info.vars ∧ s₁.info.symbols = s.info.symbols := by
    cases (typeExpr_run p te s).symm.trans read
    exact ⟨rfl, rfl⟩
  have lt₁ : id < s₁.info.symbols.symbols.size := same.2 ▸ lt
  have noted := typeExpr_written read
  rw [same.1, found] at run
  cases run
  refine ⟨te, id, t, written, same.1 ▸ found, ?_, noted, ?_⟩
  · exact Nat.lt_of_lt_of_eq lt₁ Array.size_modify.symm
  · change ((SymbolTable.modifySymbol _ _ _).symbol id).type = _
    rw [SymbolTable.symbol_modifySymbol, if_pos ⟨rfl, lt₁⟩]

/-! ### Zones -/

/-- What the second pass does in a zone: it enters functions, and variables of the zone get their written
types. -/
structure State.Signs (zone : List Node) (bs : List (String × FuncDecl))
    (rs : List (TypeExpr × FuncDecl)) (s s' : State) : Prop where
  entered : ∃ own es, s.Enlists own bs es s' ∧ (∀ d ∈ own, .var d ∈ zone) ∧
    List.Forall₂ s'.Refurbishes es rs.reverse
  targets : ∀ r ∈ rs, r.1.span ∈ typeSpans zone
  types : ∀ d te, .var d ∈ zone → d.type = some te → te.span ∈ typeSpans zone
  typed : ∀ d, .var d ∈ zone → s'.Typed d

variable {zone zone' : List Node} {bs bs' : List (String × FuncDecl)}
  {rs rs' : List (TypeExpr × FuncDecl)}

theorem State.Signs.of_enlists (enlists : s.Enlists [] bs [] s') (plain : ∀ d, .var d ∉ zone) :
    s.Signs zone bs [] s' :=
  ⟨⟨[], [], enlists, by simp, .nil⟩, by simp, fun d _ member => absurd member (plain d),
    fun d member => absurd member (plain d)⟩

theorem State.Typed.kept {d : VarDecl} {own : List VarDecl} {es : List (String × String × Extension)}
    (h : s.Typed d) (formed : s.Formed file) (rooted : s.Rooted) (enlists : s.Enlists own bs es s')
    (frames : s.Frames zone s') (vars : s'.info.vars = s.info.vars)
    (outside : ∀ te, d.type = some te → te.span ∉ typeSpans zone)
    (away : ∀ e ∈ own, e.info.span ≠ d.info.span) : s'.Typed d := by
  obtain ⟨te, id, t, written, found, lt, noted, typed⟩ := h
  refine ⟨te, id, t, written, by rw [vars, found], Nat.lt_of_lt_of_le lt enlists.size, ?_, ?_⟩
  · rw [frames.typeExprs _ (outside te written), noted]
  · rw [enlists.symbol id lt (formed.vars _ _ found).2 fun e member origin => ?_, typed]
    exact away e member (Origin.var.inj (origin.symm.trans (rooted _ _ found).2))

theorem State.Signs.trans (zoned : file.Zoned) (formed : s'.Formed file) (rooted : s'.Rooted)
    (nodes : ∀ d, .var d ∈ zone ∨ .var d ∈ zone' → .var d ∈ file.nodes)
    (apart : (typeSpans (zone ++ zone')).Nodup) (h : s.Signs zone bs rs s')
    (h' : s'.Signs zone' bs' rs' s'') (frames : s'.Frames zone' s'')
    (vars : s''.info.vars = s'.info.vars) :
    s.Signs (zone ++ zone') (bs ++ bs') (rs ++ rs') s'' := by
  obtain ⟨own, es, enlists, inside, listed⟩ := h.entered
  obtain ⟨own', es', enlists', inside', listed'⟩ := h'.entered
  rw [typeSpans_append] at apart
  have outside : ∀ span ∈ typeSpans zone, span ∉ typeSpans zone' := fun span here there =>
    (List.nodup_append.mp apart).2.2 span here span there rfl
  have spans : ∀ span, span ∈ typeSpans (zone ++ zone') ↔
      span ∈ typeSpans zone ∨ span ∈ typeSpans zone' := fun span => by
    rw [typeSpans_append, List.mem_append]
  refine ⟨⟨own ++ own', es' ++ es, enlists.trans enlists', fun d member => ?_, ?_⟩, fun r member => ?_,
    fun d te member written => ?_, fun d member => ?_⟩
  · rcases List.mem_append.mp member with member | member
    · exact List.mem_append_left _ (inside d member)
    · exact List.mem_append_right _ (inside' d member)
  · rw [List.reverse_append]
    refine List.rel_append listed' ?_
    have targets : ∀ r ∈ rs.reverse, r.1.span ∈ typeSpans zone := fun r member =>
      h.targets r (List.mem_reverse.mp member)
    clear enlists
    generalize rs.reverse = listing at listed targets
    induction listed with
    | nil => exact .nil
    | @cons x r es rs first rest ih =>
      refine .cons ?_ (ih fun r member => targets r (List.mem_cons_of_mem _ member))
      obtain ⟨t, noted, same⟩ := first
      refine ⟨t, ?_, same⟩
      rw [frames.typeExprs _ (outside _ (targets r List.mem_cons_self)), noted]
  · refine (spans _).mpr ?_
    rcases List.mem_append.mp member with member | member
    · exact .inl (h.targets r member)
    · exact .inr (h'.targets r member)
  · refine (spans _).mpr ?_
    rcases List.mem_append.mp member with member | member
    · exact .inl (h.types d te member written)
    · exact .inr (h'.types d te member written)
  · rcases List.mem_append.mp member with member | member
    · by_cases again : ∃ e ∈ own', e.info.span = d.info.span
      · obtain ⟨e, member', same⟩ := again
        obtain rfl := zoned.vars e d (nodes e (.inr (inside' e member'))) (nodes d (.inl member)) same
        exact h'.typed e (inside' e member')
      · refine (h.typed d member).kept formed rooted enlists' frames vars (fun te written => ?_)
          fun e member' same => again ⟨e, member', same⟩
        exact outside _ (h.types d te member written)
    · exact h'.typed d member

/-! ### Declarations -/

theorem signing_vars {b : Bool} (run : s.Run (signing file zone b).may s') :
    s'.info.vars = s.info.vars ∧ (∀ k, s'.entry (.expr k) = s.entry (.expr k)) := by
  refine run.keeps (P := fun s' => s'.info.vars = s.info.vars ∧
    (∀ k, s'.entry (.expr k) = s.entry (.expr k))) (fun s₁ c allowed before => ?_) ⟨rfl, fun _ => rfl⟩
  have signs := allowed.2
  cases c with
  | alloc _ | type _ _ | newClass _ | addBase _ _ | capabilities _ | extension _ | extended _
  | func _ _ | refurbish _ _ _ | param _ _ | result _ _ | written _ _ => exact before
  | _ => exact absurd signs id

theorem signing_rooted {b : Bool} (run : s.Run (signing file zone b).may s') (rooted : s.Rooted) :
    s'.Rooted := by
  intro span id found
  rw [(signing_vars run).1] at found
  obtain ⟨lt, origin⟩ := rooted span id found
  have frames := signing_frames run
  obtain ⟨t, same⟩ := frames.symbol id lt
  exact ⟨Nat.lt_of_lt_of_le lt frames.size, by rw [same]; exact origin⟩

mutual

theorem TypeExpr.nodes_types {n : Node} : (t : TypeExpr) → n ∈ t.nodes → ∃ u, n = .type u
  | .named span name args stars, member => by
    rw [TypeExpr.nodes] at member
    rcases List.mem_cons.mp member with rfl | member
    · exact ⟨_, rfl⟩
    · exact TypeExpr.nodesOf_types args member
  | .tuple span elems stars, member => by
    rw [TypeExpr.nodes] at member
    rcases List.mem_cons.mp member with rfl | member
    · exact ⟨_, rfl⟩
    · exact TypeExpr.nodesOf_types elems member
  | .func span params none stars, member => by
    simp only [TypeExpr.nodes, List.append_nil] at member
    rcases List.mem_cons.mp member with rfl | member
    · exact ⟨_, rfl⟩
    · exact TypeExpr.nodesOf_types params member
  | .func span params (some result) stars, member => by
    simp only [TypeExpr.nodes] at member
    rcases List.mem_cons.mp member with rfl | member
    · exact ⟨_, rfl⟩
    · rcases List.mem_append.mp member with member | member
      · exact TypeExpr.nodesOf_types params member
      · exact TypeExpr.nodes_types result member

theorem TypeExpr.nodesOf_types {n : Node} : (ts : List TypeExpr) → n ∈ TypeExpr.nodesOf ts →
    ∃ u, n = .type u
  | t :: ts, member => by
    rcases List.mem_append.mp member with member | member
    · exact TypeExpr.nodes_types t member
    · exact TypeExpr.nodesOf_types ts member

end

theorem FuncDecl.early_types {f : FuncDecl} {n : Node} (member : n ∈ f.early) : ∃ u, n = .type u := by
  rcases List.mem_append.mp member with member | member
  · obtain ⟨q, -, member⟩ := List.mem_flatMap.mp member
    exact TypeExpr.nodes_types q.type member
  · cases result : f.result with
    | none =>
      rw [result] at member
      cases member
    | some r =>
      rw [result] at member
      exact TypeExpr.nodes_types r member

theorem itemSignature_grants {i : Item} (formed : s.Formed file) (rooted : s.Rooted)
    (stands : Item.Stands s i) (run : itemSignature p i s = .ok (u, s')) :
    s.Signs i.early [] [] s' := by
  cases i with
  | var d =>
    have enlists := varSignature_enlists rooted run
    cases written : d.type with
    | none =>
      have zone : (Item.var d).early = [] := by simp [Item.early, written, nodesIn]
      change varSignature p d s = _ at run
      unfold varSignature at run
      rw [written] at run
      cases run
      rw [zone]
      exact .of_enlists (.refl s) (by simp)
    | some te =>
      have zone : (Item.var d).early = .var d :: te.nodes := by simp [Item.early, written, nodesIn]
      have own : ∀ e, Node.var e ∈ Node.var d :: te.nodes → e = d := by
        intro e member
        rcases List.mem_cons.mp member with same | member
        · exact Node.var.inj same
        · obtain ⟨u, same⟩ := TypeExpr.nodes_types te member
          cases same
      rw [zone]
      refine ⟨⟨[d], [], enlists, by simp, .nil⟩, by simp, fun e te' member written' => ?_,
        fun e member => ?_⟩
      · obtain rfl := own e member
        obtain rfl := Option.some.inj (written.symm.trans written')
        exact mem_typeSpans.mpr ⟨te, List.mem_cons_of_mem _ te.type_mem, rfl⟩
      · obtain rfl := own e member
        exact varSignature_types written formed stands run
  | func f =>
    refine .of_enlists ((funcSignature_leaves f).run run) fun d member => ?_
    obtain ⟨u, same⟩ := FuncDecl.early_types member
    cases same
  | enum d =>
    cases run
    exact .of_enlists (.refl s) fun d member => absurd member List.not_mem_nil
  | inject info text =>
    cases run
    exact .of_enlists (.refl s) fun d member => absurd member List.not_mem_nil

/-- What is needed of a zone before the second pass comes to it. -/
structure State.Zone (file : File) (zone : List Node) (s : State) : Prop where
  zoned : file.Zoned
  formed : s.Formed file
  bared : s.Bared file
  rooted : s.Rooted
  inside : ∀ n ∈ zone, n ∈ file.nodes
  once : (typeSpans zone).Nodup

theorem State.Zone.first (h : s.Zone file (zone ++ zone')) : s.Zone file zone where
  zoned := h.zoned
  formed := h.formed
  bared := h.bared
  rooted := h.rooted
  inside n member := h.inside n (List.mem_append_left _ member)
  once := by
    have once := h.once
    rw [typeSpans_append] at once
    exact (List.nodup_append.mp once).1

theorem State.Zone.second {b : Bool} (h : s.Zone file (zone ++ zone'))
    (run : s.Run (signing file zone b).may s') : s'.Zone file zone' where
  zoned := h.zoned
  formed := run.formed (signing file zone b).legal h.formed
  bared := h.bared.run h.formed run
  rooted := signing_rooted run h.rooted
  inside n member := h.inside n (List.mem_append_right _ member)
  once := by
    have once := h.once
    rw [typeSpans_append] at once
    exact (List.nodup_append.mp once).2.1

theorem State.Zone.signs {b b' : Bool} (h : s.Zone file (zone ++ zone'))
    (run : s.Run (signing file zone b).may s') (signs : s.Signs zone bs rs s')
    (run' : s'.Run (signing file zone' b').may s'') (signs' : s'.Signs zone' bs' rs' s'') :
    s.Signs (zone ++ zone') (bs ++ bs') (rs ++ rs') s'' := by
  have later := h.second run
  refine signs.trans h.zoned later.formed later.rooted (fun d member => ?_) h.once signs'
    (signing_frames run') (signing_vars run').1
  exact h.inside _ (List.mem_append.mpr member)

theorem items_grant {items : List Item} (nodes : ∀ n ∈ items.flatMap Item.nodes, n ∈ file.nodes)
    (zone : s.Zone file (items.flatMap Item.early)) (inside : p.scope < s.info.symbols.scopes.size)
    (stands : ∀ i ∈ items, Item.Stands s i) (run : items.forM (itemSignature p) s = .ok (u, s')) :
    s.Signs (items.flatMap Item.early) [] [] s' := by
  induction items generalizing s with
  | nil =>
    cases run
    exact .of_enlists (.refl _) fun d member => nomatch member
  | cons i items ih =>
    simp only [List.flatMap_cons] at nodes zone ⊢
    obtain ⟨_, s₁, first, rest⟩ := bind_ok run
    have nodes' := fun n h => nodes n (List.mem_append_right _ h)
    have here := itemSignature_grants zone.formed zone.rooted (stands i List.mem_cons_self) first
    obtain ⟨run₁, -⟩ : s.Run (signing file i.early true).may s₁ ∧ _ :=
      itemSignature_signs (fun n h => nodes n (List.mem_append_left _ h)) (fun _ h => h)
        ⟨zone.formed, zone.bared, inside⟩ (stands i List.mem_cons_self) first
    have grown := Regime.grows run₁
    have later := zone.second run₁
    have inside₁ := Nat.lt_of_lt_of_le inside grown.symbols.scopes
    have stands₁ : ∀ i ∈ items, Item.Stands s₁ i := fun j member =>
      (stands j (List.mem_cons_of_mem _ member)).mono grown
    obtain ⟨run₂, -⟩ : s₁.Run (signing file (items.flatMap Item.early) true).may s' ∧ _ :=
      items_sign nodes' (fun _ h => h) ⟨later.formed, later.bared, inside₁⟩ stands₁ rest
    exact zone.signs run₁ here run₂ (ih nodes' later inside₁ stands₁ rest)

theorem classSignature_grants {id : SymbolId} {bases : List TypeExpr} {items : List Item}
    (nodes : ∀ n ∈ items.flatMap Item.nodes, n ∈ file.nodes)
    (zone : s.Zone file (TypeExpr.nodesOf bases ++ items.flatMap Item.early))
    (inside : p.scope < s.info.symbols.scopes.size) (isClass : s.info.symbols.IsClass id)
    (stands : ∀ i ∈ items, Item.Stands s i)
    (run : classSignature p id bases items s = .ok (u, s')) :
    s.Signs (TypeExpr.nodesOf bases ++ items.flatMap Item.early) [] [] s' := by
  obtain ⟨_, _, read, run⟩ := bind_ok run
  cases read
  obtain ⟨full, number, type⟩ := isClass.type
  obtain ⟨m, members⟩ := isClass.members
  dsimp only at run
  rw [type, members] at run
  have written : Covers (signing file (TypeExpr.nodesOf bases) true) p.scope
      (bases.forM (baseSignature p number)) (bases.flatMap TypeExpr.nodes) := .forM fun b member =>
    baseSignature_covers number fun n h => TypeExpr.mem_nodesOf.mpr ⟨b, member, h⟩
  obtain ⟨_, s₁, ran, ready₁, run₁, -, run⟩ :=
    written.first_ok ⟨zone.formed, zone.bared, inside⟩ run
  have first : s.Signs (TypeExpr.nodesOf bases) [] [] s₁ := by
    refine .of_enlists ((Leaves.forM (baseSignature_leaves number)).run ran) fun d member => ?_
    obtain ⟨t, same⟩ := TypeExpr.nodesOf_types bases member
    cases same
  have grown := Regime.grows run₁
  have inner : m < s₁.info.symbols.scopes.size :=
    Nat.lt_of_lt_of_le (zone.formed.members id m members) grown.symbols.scopes
  have stands₁ : ∀ i ∈ items, Item.Stands s₁ i := fun i member => (stands i member).mono grown
  obtain ⟨run₂, -⟩ : s₁.Run (signing file (items.flatMap Item.early) true).may s' ∧ _ :=
    items_sign nodes (fun _ h => h) ⟨ready₁.formed, ready₁.relies, inner⟩ stands₁ run
  exact zone.signs run₁ first run₂ (items_grant nodes (zone.second run₁) inner stands₁ run)

theorem abstractionSignature_grants {name : String}
    (formed : s.Formed file) (bared : s.Bared file) (inside : p.scope < s.info.symbols.scopes.size)
    (stands : ∃ id, s.info.symbols.lookupLocal? p.scope name = some id ∧
      (s.info.symbols.symbol id).kind = .abstraction)
    (run : abstractionSignature p name target fs s = .ok (u, s')) :
    s.Signs (target.nodes ++ fs.flatMap FuncDecl.early) (fs.map fun f => (name, f)) [] s' := by
  refine .of_enlists (abstractionSignature_enlists formed bared inside stands run) fun d member => ?_
  rcases List.mem_append.mp member with member | member
  · obtain ⟨t, same⟩ := TypeExpr.nodes_types target member
    cases same
  · obtain ⟨f, -, member⟩ := List.mem_flatMap.mp member
    obtain ⟨t, same⟩ := FuncDecl.early_types member
    cases same

theorem refurbishSignature_grants {info : DeclInfo} (listed : ∀ f ∈ fs, f ∈ file.funcs)
    (attached : p.Attached file [.refurbish info target fs])
    (nodes : ∀ n ∈ fs.flatMap FuncDecl.nodes, n ∈ file.nodes)
    (zone : s.Zone file (target.nodes ++ fs.flatMap FuncDecl.early))
    (inside : p.scope < s.info.symbols.scopes.size)
    (run : refurbishSignature p target fs s = .ok (u, s')) :
    s.Signs (target.nodes ++ fs.flatMap FuncDecl.early) [] (fs.map fun f => (target, f)) s' := by
  have covers : Covers (signing file target.nodes true) p.scope (typeExpr p target) target.nodes :=
    typeExpr_covers signing_writes target fun _ h => h
  obtain ⟨_, _, found, rest⟩ := bind_ok run
  obtain ⟨rfl, -⟩ := requireFound_ok found
  obtain ⟨t, s₁, read, ready₁, run₁, -, run⟩ :=
    covers.first_ok ⟨zone.formed, zone.bared, inside⟩ rest
  obtain ⟨run₂, -⟩ := Regime.forM_run (r := signing file (fs.flatMap FuncDecl.early) true)
    (fun (f : FuncDecl) s => s.Reached file State.Signed f.early [f])
    ⟨ready₁.formed, ready₁.relies, ready₁.inside⟩
    (fun f _ _ _ formed run h => h.run (State.Signed.lasts _) formed run)
    (fun f member _ _ _ ready turn => refurbishFunc_signs (listed f member)
      (attached.home ready.inside) (nodes _ (List.mem_flatMap.mpr ⟨f, member, List.mem_cons_self⟩))
      (fun n h => List.mem_flatMap.mpr ⟨f, member, h⟩) ready turn) run
  obtain ⟨es, enlists, entries⟩ := refurbishFuncs_enlists run
  have own : target.span ∈ typeSpans target.nodes := mem_typeSpans.mpr ⟨target, target.type_mem, rfl⟩
  have once := zone.once
  rw [typeSpans_append] at once
  have noted : s'.info.typeExprs[target.span]? = some t := by
    rw [(signing_frames run₂).typeExprs _ fun there =>
      (List.nodup_append.mp once).2.2 _ own _ there rfl]
    exact typeExpr_written read
  have plain : ∀ d, .var d ∉ target.nodes ++ fs.flatMap FuncDecl.early := by
    intro d member
    rcases List.mem_append.mp member with member | member
    · obtain ⟨t, same⟩ := TypeExpr.nodes_types target member
      cases same
    · obtain ⟨f, -, member⟩ := List.mem_flatMap.mp member
      obtain ⟨t, same⟩ := FuncDecl.early_types member
      cases same
  refine ⟨⟨[], es, ((typeExpr_leaves target).run read).after enlists, by simp, ?_⟩, fun r member => ?_,
    fun d _ member => absurd member (plain d), fun d member => absurd member (plain d)⟩
  · rw [← List.map_reverse, List.forall₂_map_right_iff]
    exact entries.imp fun x f h => ⟨t, noted, h⟩
  · obtain ⟨f, -, rfl⟩ := List.mem_map.mp member
    rw [typeSpans_append]
    exact List.mem_append_left _ own

mutual

theorem signature_grants {p : Place} {u : Unit} {s s' : State} : (d : Decl) →
    s.Zone file d.early → p.scope < s.info.symbols.scopes.size → (∀ n ∈ d.nodes, n ∈ file.nodes) →
    (∀ f ∈ d.funcs, f ∈ file.funcs) → p.Attached file [d] → Decl.Stands s p.scope d →
    signature p d s = .ok (u, s') → s.Signs d.early d.bound d.refurbs s'
  | .item i, zone, _, _, _, _, stands, run => itemSignature_grants zone.formed zone.rooted stands run
  | .scope info name ds, zone, inside, nodes, listed, _, stands, run => by
    rw [Decl.nodes] at nodes
    obtain ⟨_, _, read, run⟩ := bind_ok run
    cases read
    obtain ⟨m, s₁, found, rest⟩ := bind_ok run
    obtain ⟨rfl, lt, stand⟩ := namespaceScope_stands zone.formed inside stands found
    exact signatures_grant (p := p.within _ name info.span.start m) ds zone lt
      (fun n h => nodes n (List.mem_cons_of_mem _ h)) listed
      (zone.bared.within (nodes _ List.mem_cons_self)) stand rest
  | .cls info name bases items, zone, inside, nodes, _, _, stands, run => by
    rw [Decl.nodes] at nodes
    obtain ⟨_, _, read, run⟩ := bind_ok run
    cases read
    obtain ⟨id, found⟩ := Option.isSome_iff_exists.mp stands.1
    rw [found] at run
    refine classSignature_grants (fun n h => ?_) zone inside (zone.formed.classSymbol? found) stands.2 run
    exact nodes n (List.mem_cons_of_mem _ (List.mem_append_right _ h))
  | .abstraction _ _ _ _, zone, inside, _, _, _, stands, run =>
    abstractionSignature_grants zone.formed zone.bared inside stands.1 run
  | .refurbish _ _ _, zone, inside, nodes, listed, attached, _, run => by
    rw [Decl.nodes] at nodes
    refine refurbishSignature_grants listed attached (fun n h => ?_) zone inside run
    exact nodes n (List.mem_cons_of_mem _ (List.mem_append_right _ h))
  | .includes _ _ _ _, _, _, _, _, _, _, run | .assume _ _ _, _, _, _, _, _, _, run
  | .attributeDef _ _ _ _, _, _, _, _, _, _, run => by
    cases run
    exact .of_enlists (.refl s) fun d member => nomatch member

theorem signatures_grant {p : Place} {u : Unit} {s s' : State} : (ds : List Decl) →
    s.Zone file (Decl.earlyOf ds) → p.scope < s.info.symbols.scopes.size →
    (∀ n ∈ Decl.nodesOf ds, n ∈ file.nodes) → (∀ f ∈ Decl.funcsOf ds, f ∈ file.funcs) →
    p.Attached file ds → Decl.StandAll s p.scope ds → signatures p ds s = .ok (u, s') →
    s.Signs (Decl.earlyOf ds) (Decl.boundOf ds) (Decl.refurbsOf ds) s'
  | [], _, _, _, _, _, _, run => by
    cases run
    exact .of_enlists (.refl s) fun d member => nomatch member
  | d :: ds, zone, inside, nodes, listed, attached, stands, run => by
    simp only [Decl.nodesOf, Decl.funcsOf, List.mem_append] at nodes listed
    obtain ⟨_, s₁, here, run⟩ := bind_ok run
    have early : Decl.earlyOf (d :: ds) = d.early ++ Decl.earlyOf ds := rfl
    rw [early] at zone ⊢
    obtain ⟨run₁, -⟩ : s.Run (signing file d.early true).may s₁ ∧ _ :=
      signature_signs ⟨zone.formed, zone.bared, inside⟩ d (fun n h => nodes n (.inl h)) (fun _ h => h)
        (fun f h => listed f (.inl h)) attached.head stands.1 here
    have grown := Regime.grows run₁
    have later := zone.second run₁
    have inside₁ := Nat.lt_of_lt_of_le inside grown.symbols.scopes
    have stand₁ := Decl.StandAll.mono zone.formed grown ds inside stands.2
    obtain ⟨run₂, -⟩ : s₁.Run (signing file (Decl.earlyOf ds) true).may s' ∧ _ :=
      signatures_signs ⟨later.formed, later.bared, inside₁⟩ ds (fun n h => nodes n (.inr h))
        (fun _ h => h) (fun f h => listed f (.inr h)) attached.tail stand₁ run
    exact zone.signs run₁ (signature_grants d zone.first inside (fun n h => nodes n (.inl h))
      (fun f h => listed f (.inl h)) attached.head stands.1 here) run₂
      (signatures_grant ds later inside₁ (fun n h => nodes n (.inr h))
        (fun f h => listed f (.inr h)) attached.tail stand₁ run)

end

end Resolution

end TastyLang
