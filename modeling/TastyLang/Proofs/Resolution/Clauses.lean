import TastyLang.Proofs.Resolution.Frames
import TastyLang.Proofs.Resolution.Numbering
import TastyLang.Proofs.Ty.Bare

/-!
# Bases come from clauses

Whatever the second pass puts under the bases of a class stands for a clause that is written at a
class of that name (`State.Linked`). A binding shares the bases that its target has by then.
-/

namespace TastyLang

/-- The types that a class is written to extend. -/
def Decl.clauses : Decl → List TypeExpr
  | .cls _ _ bases _ => bases
  | _ => []

def Info.classType? (info : Info) (span : Span) : Option Ty :=
  (info.classSymbol? span).bind fun id => (info.symbols.symbol id).type

theorem Ty.core_pointerTo_cls {t : Ty} {level : Nat} {x : String} {n : Nat}
    (h : (t.pointerTo level).core = .cls x n) : t.core = .cls x n := by
  unfold Ty.pointerTo at h
  split at h
  · exact h
  · split at h <;> cases h

theorem Ty.core_viaBinding (t : Ty) (b : String) : (t.viaBinding b).core = t.core := by
  unfold Ty.viaBinding
  split <;> exact t.core_core

namespace Resolution

variable {file : File} {s s' : State} {p : Place} {zone : List Node} {x : String} {n : Nat}

theorem classType?_mono (formed : s.Formed file) (grown : s.Grows s') {span : Span} {t : Ty}
    (h : s.info.classType? span = some t) : s'.info.classType? span = some t := by
  obtain ⟨id, found, typed⟩ := Option.bind_eq_some_iff.mp h
  have isClass := formed.classSymbol? found
  refine Option.bind_eq_some_iff.mpr ⟨id, classSymbol?_mono grown found, ?_⟩
  exact (grown.symbols.symbol id isClass.known).settled (by rw [isClass.kind]; rfl) t typed

/-- A class called `x` has a clause that stands for `u`. -/
def State.Extends (file : File) (s : State) (x : String) (u : Ty) : Prop :=
  ∃ c b k, .decl c ∈ file.nodes ∧ b ∈ c.clauses ∧ .type b ∈ file.early ∧
    s.info.typeExprs[b.span]? = some u ∧ s.info.classType? c.info.span = some (.cls x k)

theorem State.Extends.mono {u : Ty} (h : s.Extends file x u) (formed : s.Formed file)
    (grown : s.Grows s')
    (typeExprs : ∀ (span : Span) t, .some t = s.info.typeExprs[span]? →
      s'.info.typeExprs[span]? = some t) : s'.Extends file x u := by
  obtain ⟨c, b, k, listed, clause, early, written, type⟩ := h
  exact ⟨c, b, k, listed, clause, early, typeExprs _ _ written.symm,
    classType?_mono formed grown type⟩

structure State.Linked (file : File) (s : State) : Prop where
  numbered : s.Numbered
  classes : ∀ bs ∈ s.info.hierarchy.bases, ∀ u ∈ bs, ∃ y m, u.core = .cls y m
  derived : ∀ (n : Nat) bs, s.info.hierarchy.bases[n]? = some bs → ∀ u ∈ bs,
    ∃ x, s.Extends file x u ∧ ∀ y, s.Calls y n → y = x

theorem State.Blank.linked (blank : s.Blank) : s.Linked file where
  numbered := blank.numbered
  classes bs listed u member := by
    rw [blank.rootless bs listed] at member
    cases member
  derived n bs found u member := by
    rw [blank.rootless bs (List.mem_of_getElem? found)] at member
    cases member

/-! ### Between classes and bindings -/

theorem State.Rests.calls (rests : s.Rests s') (framed : s.Frames zone s') :
    s'.Calls x n ↔ s.Calls x n := by
  have other : ∀ {t : SymbolTable} {id : SymbolId}, (t.symbol id).kind.isTypeName = true →
      (t.symbol id).kind ≠ .var := by
    intro t id named var
    rw [var] at named
    cases named
  constructor
  · rintro (⟨id, t, named, typed, core⟩ | base)
    · by_cases known : id < s.info.symbols.symbols.size
      · obtain ⟨_, same⟩ := framed.symbol id known
        have kept := rests.symbol id known (by simpa only [same] using other named)
        rw [kept] at named typed
        exact .inl ⟨id, t, named, typed, core⟩
      · by_cases lt : id < s'.info.symbols.symbols.size
        · rw [framed.fresh id lt (Nat.le_of_not_lt known)] at named
          cases named
        · rw [SymbolTable.symbol_of_le (Nat.le_of_not_lt lt)] at typed
          cases typed
    · exact .inr (rests.hierarchy ▸ base)
  · rintro (⟨id, t, named, typed, core⟩ | base)
    · have known : id < s.info.symbols.symbols.size := by
        by_contra le
        rw [SymbolTable.symbol_of_le (Nat.le_of_not_lt le)] at typed
        cases typed
      refine .inl ⟨id, t, ?_, ?_, core⟩
      · rwa [rests.symbol id known (other named)]
      · rwa [rests.symbol id known (other named)]
    · exact .inr (rests.hierarchy ▸ base)

theorem State.Frames.written (framed : s.Frames zone s') (unwritten : s.Unwritten zone)
    (span : Span) (t : Ty) (h : some t = s.info.typeExprs[span]?) :
    s'.info.typeExprs[span]? = some t := by
  rw [framed.typeExprs span fun inside => ?_, h]
  rw [unwritten span inside] at h
  cases h

theorem State.Linked.rests (linked : s.Linked file) (formed : s.Formed file)
    (unwritten : s.Unwritten zone) (run : s.Run (signing file zone false).may s') :
    s'.Linked file := by
  have framed := signing_frames run
  have rests := signing_rests run
  have calls : ∀ y m, s'.Calls y m → s.Calls y m := fun y m => (rests.calls framed).mp
  refine ⟨linked.numbered.fewer (Nat.le_of_eq (by rw [rests.hierarchy])) calls, ?_, ?_⟩
  · rw [rests.hierarchy]
    exact linked.classes
  · rw [rests.hierarchy]
    intro n bs found u member
    obtain ⟨x, extends_, unique⟩ := linked.derived n bs found u member
    exact ⟨x, extends_.mono formed (Regime.grows run) (framed.written unwritten),
      fun y h => unique y (calls y n h)⟩

/-! ### What a written type stands for -/

theorem namedType_calls {name : String} {t : Ty} (run : namedType p name s = .ok (t, s'))
    (core : t.core = .cls x n) : s.Calls x n := by
  obtain ⟨step, same, run⟩ := exists_step run
  unfold namedType at same
  split at same
  · subst same
    obtain ⟨rfl, -⟩ := pure_ok run
    unfold Ty.ofPrimitive at core
    split at core <;> cases core
  · subst same
    obtain ⟨_, _, read, run⟩ := bind_ok run
    cases read
    obtain ⟨step, same, run⟩ := exists_step run
    split at same
    · next sym found =>
      obtain ⟨id, -, rfl⟩ := Option.map_eq_some_iff.mp found
      split at same
      · next u kind typed =>
        subst same
        obtain ⟨rfl, -⟩ := pure_ok run
        exact .inl ⟨id, _, by rw [kind]; rfl, typed, core⟩
      · next u kind typed =>
        subst same
        obtain ⟨rfl, -⟩ := pure_ok run
        exact .inl ⟨id, _, by rw [kind]; rfl, typed, core⟩
      · next u kind typed =>
        subst same
        obtain ⟨rfl, -⟩ := pure_ok run
        exact .inl ⟨id, _, by rw [kind]; rfl, typed, core⟩
      · subst same
        obtain ⟨rfl, -⟩ := pure_ok run
        cases core
    · subst same
      obtain ⟨rfl, -⟩ := pure_ok run
      cases core

theorem typeExpr_calls {e : TypeExpr} {t : Ty} (run : typeExpr p e s = .ok (t, s')) :
    s'.info.typeExprs[e.span]? = some t ∧ (t.core = .cls x n → s.Calls x n) := by
  have noted : ∀ {span : Span} {u : Ty} {s₁ : State}, noteType span u s₁ = .ok (t, s') →
      s'.info.typeExprs[span]? = some t ∧ t = u := by
    intro span u s₁ run
    cases run
    exact ⟨Std.TreeMap.getElem?_insert_self, rfl⟩
  cases e with
  | tuple span elems stars =>
    obtain ⟨ts, s₁, -, run⟩ := bind_ok run
    obtain ⟨written, rfl⟩ := noted run
    exact ⟨written, fun core => by cases Ty.core_pointerTo_cls core⟩
  | func span params result stars =>
    rw [typeExpr] at run
    obtain ⟨ts, s₁, -, run⟩ := bind_ok run
    obtain ⟨r, s₂, run⟩ : ∃ r s₂, noteType span ((Ty.func ts r).pointerTo stars) s₂ = .ok (t, s') := by
      cases result with
      | none =>
        obtain ⟨r, s₂, -, run⟩ := bind_ok run
        exact ⟨r, s₂, run⟩
      | some e =>
        obtain ⟨r, s₂, -, run⟩ := bind_ok run
        exact ⟨r, s₂, run⟩
    obtain ⟨written, rfl⟩ := noted run
    exact ⟨written, fun core => by cases Ty.core_pointerTo_cls core⟩
  | named span name args stars =>
    obtain ⟨u, s₁, found, run⟩ := bind_ok run
    obtain ⟨ts, s₂, -, run⟩ := bind_ok run
    obtain ⟨written, rfl⟩ := noted run
    refine ⟨written, fun core => ?_⟩
    have core := Ty.core_pointerTo_cls core
    split at core
    · exact namedType_calls found core
    · cases core

/-! ### Classes -/

theorem State.Linked.addBase (linked : s.Linked file) {k : Nat} {u : Ty} (calls : s.Calls x k)
    {y : String} {m : Nat} (core : u.core = .cls y m) (called : s.Calls y m)
    (extends_ : s.Extends file x u) : State.Linked file ((Change.addBase k u).apply s) := by
  have bases : ∀ bs ∈ s.info.hierarchy.bases.modify k (· ++ [u]), ∀ v ∈ bs,
      (∃ bs ∈ s.info.hierarchy.bases, v ∈ bs) ∨ v = u := by
    intro bs listed v member
    obtain ⟨i, found⟩ := List.mem_iff_getElem?.mp listed
    rw [List.getElem?_modify] at found
    obtain ⟨old, was, rfl⟩ := Option.map_eq_some_iff.mp found
    split at member
    · rcases List.mem_append.mp member with inside | new
      · exact .inl ⟨old, List.mem_of_getElem? was, inside⟩
      · exact .inr (List.mem_singleton.mp new)
    · exact .inl ⟨old, List.mem_of_getElem? was, member⟩
  have fewer : ∀ z l, ((Change.addBase k u).apply s).Calls z l → s.Calls z l := by
    rintro z l (named | ⟨bs, listed, v, member, same⟩)
    · exact .inl named
    · rcases bases bs listed v member with ⟨bs, listed, member⟩ | rfl
      · exact .inr ⟨bs, listed, v, member, same⟩
      · cases core.symm.trans same
        exact called
  refine ⟨linked.numbered.fewer (Nat.le_of_eq (List.length_modify ..).symm) fewer, ?_, ?_⟩
  · intro bs listed v member
    rcases bases bs listed v member with ⟨bs, listed, member⟩ | rfl
    · exact linked.classes bs listed v member
    · exact ⟨y, m, core⟩
  · intro i bs found v member
    change (s.info.hierarchy.bases.modify k (· ++ [u]))[i]? = some bs at found
    rw [List.getElem?_modify] at found
    obtain ⟨old, was, rfl⟩ := Option.map_eq_some_iff.mp found
    have before : v ∈ old → ∃ x, s.Extends file x v ∧
        ∀ y, ((Change.addBase k u).apply s).Calls y i → y = x := by
      intro inside
      obtain ⟨z, from_, unique⟩ := linked.derived i old was v inside
      exact ⟨z, from_, fun y h => unique y (fewer y i h)⟩
    split at member
    · next same =>
      subst same
      rcases List.mem_append.mp member with inside | new
      · exact before inside
      · obtain rfl := List.mem_singleton.mp new
        exact ⟨x, extends_, fun z h => linked.numbered.unique z x k (fewer z k h) calls⟩
    · exact before member

theorem baseSignature_links {c : Decl} {b : TypeExpr} {k : Nat} {u : Unit}
    (listed : .decl c ∈ file.nodes) (clause : b ∈ c.clauses) (early : .type b ∈ file.early)
    (formed : s.Formed file) (bared : s.Bared file) (inside : p.scope < s.info.symbols.scopes.size)
    (unwritten : s.Unwritten b.nodes) (type : s.info.classType? c.info.span = some (.cls x k))
    (linked : s.Linked file) (run : baseSignature p k b s = .ok (u, s')) : s'.Linked file := by
  obtain ⟨t, s₁, typed, run⟩ := bind_ok run
  have run₁ : s.Run (signing file b.nodes false).may s₁ :=
    ((typeExpr_covers signing_writes b fun _ h => h).run ⟨formed, bared, inside⟩ typed).1
  have linked₁ := linked.rests formed unwritten run₁
  have type₁ := classType?_mono formed (Regime.grows run₁) type
  obtain ⟨step, same, run⟩ := exists_step run
  split at same
  · next y m core =>
    subst same
    cases run
    obtain ⟨written, called⟩ := typeExpr_calls (x := y) (n := m) typed
    have formed₁ := run₁.formed (signing file b.nodes false).legal formed
    obtain ⟨id, found, typed₁⟩ := Option.bind_eq_some_iff.mp type₁
    have isClass := formed₁.classSymbol? found
    refine linked₁.addBase (x := x) (.inl ⟨id, _, ?_, typed₁, rfl⟩) core ?_ ?_
    · rw [isClass.kind]
      rfl
    · exact ((signing_rests run₁).calls (signing_frames run₁)).mpr (called core)
    · exact ⟨c, b, k, listed, clause, early, written, type₁⟩
  · subst same
    cases run
    exact linked₁

theorem bases_link {c : Decl} {k : Nat} {u : Unit} (listed : .decl c ∈ file.nodes)
    {bs : List TypeExpr} (clauses : ∀ b ∈ bs, b ∈ c.clauses)
    (early : ∀ n ∈ TypeExpr.nodesOf bs, n ∈ file.early)
    (apart : (typeSpans (TypeExpr.nodesOf bs)).Nodup) (formed : s.Formed file) (bared : s.Bared file)
    (inside : p.scope < s.info.symbols.scopes.size) (unwritten : s.Unwritten (TypeExpr.nodesOf bs))
    (type : s.info.classType? c.info.span = some (.cls x k)) (linked : s.Linked file)
    (run : bs.forM (baseSignature p k) s = .ok (u, s')) : s'.Linked file := by
  induction bs generalizing s with
  | nil =>
    cases run
    exact linked
  | cons b bs ih =>
    obtain ⟨_, s₁, first, rest⟩ := bind_ok run
    simp only [TypeExpr.nodesOf, List.mem_append] at early
    have here : ∀ n ∈ b.nodes, n ∈ TypeExpr.nodesOf (b :: bs) :=
      fun n h => List.mem_append_left _ h
    have linked₁ := baseSignature_links listed (clauses b List.mem_cons_self)
      (early _ (.inl (TypeExpr.type_mem b))) formed bared inside (unwritten.mono here) type linked first
    have run₁ : s.Run (signing file b.nodes true).may s₁ :=
      ((baseSignature_covers k fun _ h => h).run ⟨formed, bared, inside⟩ first).1
    have grown := Regime.grows run₁
    refine ih (fun b h => clauses b (List.mem_cons_of_mem _ h)) (fun n h => early n (.inr h)) ?_
      (run₁.formed (signing file b.nodes true).legal formed) (bared.run formed run₁)
      (Nat.lt_of_lt_of_le inside grown.symbols.scopes) ?_ (classType?_mono formed grown type) linked₁
      rest
    · exact (List.nodup_append.mp (typeSpans_append .. ▸ apart)).2.1
    · refine State.Unwritten.frames ?_ (signing_frames run₁) apart
      exact unwritten.mono fun n h => List.mem_append_right _ h

theorem classSignature_links {info : DeclInfo} {name : String} {id : SymbolId}
    {bases : List TypeExpr} {items : List Item} {u : Unit}
    (listed : .decl (.cls info name bases items) ∈ file.nodes)
    (nodes : ∀ n ∈ items.flatMap Item.nodes, n ∈ file.nodes)
    (early : ∀ n ∈ TypeExpr.nodesOf bases, n ∈ file.early)
    (apart : (typeSpans (TypeExpr.nodesOf bases ++ items.flatMap Item.early)).Nodup)
    (formed : s.Formed file) (bared : s.Bared file) (inside : p.scope < s.info.symbols.scopes.size)
    (unwritten : s.Unwritten (TypeExpr.nodesOf bases ++ items.flatMap Item.early))
    (found : s.info.classSymbol? info.span = some id) (stands : ∀ i ∈ items, Item.Stands s i)
    (linked : s.Linked file) (run : classSignature p id bases items s = .ok (u, s')) :
    s'.Linked file := by
  have isClass := formed.classSymbol? found
  obtain ⟨full, k, type⟩ := isClass.type
  obtain ⟨m, members⟩ := isClass.members
  obtain ⟨_, _, read, run⟩ := bind_ok run
  cases read
  dsimp only at run
  rw [type, members] at run
  obtain ⟨_, s₁, first, rest⟩ := bind_ok run
  have classType : s.info.classType? info.span = some (.cls full k) :=
    Option.bind_eq_some_iff.mpr ⟨id, found, type⟩
  have linked₁ := bases_link listed (fun _ h => h) early
    (List.nodup_append.mp (typeSpans_append .. ▸ apart)).1 formed bared inside
    (unwritten.mono fun n h => List.mem_append_left _ h) classType linked first
  have covers : Covers (signing file (TypeExpr.nodesOf bases) true) p.scope
      (bases.forM (baseSignature p k)) (bases.flatMap TypeExpr.nodes) := .forM fun b member =>
    baseSignature_covers k fun n h => TypeExpr.mem_nodesOf.mpr ⟨b, member, h⟩
  obtain ⟨run₁, -⟩ := covers.run ⟨formed, bared, inside⟩ first
  have grown := Regime.grows run₁
  have formed₁ := run₁.formed (signing file (TypeExpr.nodesOf bases) true).legal formed
  have ready : (signing file (items.flatMap Item.early) false).Ready m s₁ :=
    ⟨formed₁, bared.run formed run₁,
      Nat.lt_of_lt_of_le (formed.members id m members) grown.symbols.scopes⟩
  obtain ⟨run₂, -⟩ := items_sign nodes (fun _ h => h) ready
    (fun i member => (stands i member).mono grown) rest
  refine linked₁.rests formed₁ (State.Unwritten.frames ?_ (signing_frames run₁) apart) run₂
  exact unwritten.mono fun n h => List.mem_append_right _ h

/-! ### Abstract bindings -/

theorem mem_bases {m : Nat} {v : Ty} (member : v ∈ s.info.hierarchy.bases.getD m []) :
    ∃ bs, s.info.hierarchy.bases[m]? = some bs ∧ v ∈ bs := by
  cases found : s.info.hierarchy.bases[m]? with
  | none => simp [found] at member
  | some bs => exact ⟨bs, rfl, by simpa [found] using member⟩

theorem newClass_calls {m : Nat}
    (h : ((Change.newClass (s.info.hierarchy.bases.getD m [])).apply s).Calls x n) :
    s.Calls x n := by
  rcases h with named | ⟨bs, listed, v, member, core⟩
  · exact .inl named
  · rcases List.mem_append.mp listed with old | new
    · exact .inr ⟨bs, old, v, member, core⟩
    · rw [List.mem_singleton.mp new] at member
      obtain ⟨bs, found, member⟩ := mem_bases member
      exact .inr ⟨bs, List.mem_of_getElem? found, v, member, core⟩

theorem State.Linked.newClass (linked : s.Linked file) (m : Nat) :
    State.Linked file ((Change.newClass (s.info.hierarchy.bases.getD m [])).apply s) := by
  refine ⟨linked.numbered.fewer (by simp [Change.apply]) fun _ _ => newClass_calls, ?_, ?_⟩
  · intro bs listed v member
    rcases List.mem_append.mp listed with old | new
    · exact linked.classes bs old v member
    · rw [List.mem_singleton.mp new] at member
      obtain ⟨bs, found, member⟩ := mem_bases member
      exact linked.classes bs (List.mem_of_getElem? found) v member
  · intro i bs found v member
    by_cases old : i < s.info.hierarchy.bases.length
    · rw [Change.apply, List.getElem?_append_left old] at found
      obtain ⟨x, from_, unique⟩ := linked.derived i bs found v member
      exact ⟨x, from_, fun y h => unique y (newClass_calls h)⟩
    · rw [Change.apply, List.getElem?_append_right (Nat.le_of_not_lt old)] at found
      have new := List.mem_singleton.mp (List.mem_of_getElem? found)
      rw [new] at member
      obtain ⟨bs, found, member⟩ := mem_bases member
      obtain ⟨x, from_, -⟩ := linked.derived m bs found v member
      exact ⟨x, from_, fun y h => absurd (linked.numbered.bounded y i (newClass_calls h)) old⟩

/-- A binding gets its type: no class, or a class of a number that nothing is called by, with the
bases of its target. -/
theorem State.Linked.setType (linked : s.Linked file) (formed : s.Formed file) {id : SymbolId}
    (kind : (s.info.symbols.symbol id).kind = .abstraction) {self : Ty}
    (class_ : ∀ y k, self.core = .cls y k → k < s.info.hierarchy.bases.length ∧
      (∀ z, ¬ s.Calls z k) ∧ ∃ m, s.Calls y m ∧
        s.info.hierarchy.bases[k]? = s.info.hierarchy.bases[m]?) :
    State.Linked file ((Change.type id self).apply s) := by
  have legal : (Change.type id self).Legal file s := .inr (by rw [kind]; rfl)
  have grown : s.Grows ((Change.type id self).apply s) := Change.grows legal
  have calls : ∀ z l, ((Change.type id self).apply s).Calls z l →
      s.Calls z l ∨ self.core = .cls z l := by
    rintro z l (⟨i, t, named, typed, core⟩ | base)
    · change ((SymbolTable.modifySymbol _ _ _).symbol i).kind.isTypeName = true at named
      change ((SymbolTable.modifySymbol _ _ _).symbol i).type = some t at typed
      rw [SymbolTable.symbol_modifySymbol] at named typed
      split at typed
      · cases typed
        exact .inr core
      · next other =>
        rw [if_neg other] at named
        exact .inl (.inl ⟨i, t, named, typed, core⟩)
    · exact .inl (.inr base)
  have derived : ∀ {x : String} {v : Ty}, s.Extends file x v →
      State.Extends file ((Change.type id self).apply s) x v :=
    fun h => h.mono formed grown fun _ _ h => h.symm
  by_cases plain : self.Plain
  · have fewer : ∀ z l, ((Change.type id self).apply s).Calls z l → s.Calls z l :=
      fun z l h => (calls z l h).resolve_right (plain z l)
    refine ⟨linked.numbered.fewer (Nat.le_refl _) fewer, linked.classes, ?_⟩
    intro i bs found v member
    obtain ⟨x, from_, unique⟩ := linked.derived i bs found v member
    exact ⟨x, derived from_, fun y h => unique y (fewer y i h)⟩
  · obtain ⟨y, k, core⟩ : ∃ y k, self.core = .cls y k := by
      simpa only [Ty.Plain, not_forall, not_not] using plain
    obtain ⟨known, unused, m, called, same⟩ := class_ y k core
    have calls : ∀ z l, ((Change.type id self).apply s).Calls z l →
        s.Calls z l ∨ z = y ∧ l = k := by
      intro z l h
      refine (calls z l h).imp_right fun core' => ?_
      cases core.symm.trans core'
      exact ⟨rfl, rfl⟩
    refine ⟨linked.numbered.call (x := y) rfl known unused calls, linked.classes, ?_⟩
    intro i bs found v member
    change s.info.hierarchy.bases[i]? = some bs at found
    by_cases here : i = k
    · subst here
      obtain ⟨x, from_, unique⟩ := linked.derived m bs (same ▸ found) v member
      refine ⟨x, derived from_, fun z h => ?_⟩
      rcases calls z i h with old | ⟨rfl, -⟩
      · exact absurd old (unused z)
      · exact unique z called
    · obtain ⟨x, from_, unique⟩ := linked.derived i bs found v member
      refine ⟨x, derived from_, fun z h => unique z ?_⟩
      exact (calls z i h).resolve_right fun there => here there.2

theorem named_links {id : SymbolId} {t self : Ty} {binding : String} {u : Unit} {s₁ : State}
    (linked : s.Linked file) (formed : s.Formed file)
    (kind : (s.info.symbols.symbol id).kind = .abstraction)
    (calls : ∀ y m, t.core = .cls y m → s.Calls y m) (made : named t binding s = .ok (self, s₁))
    (run : setType id self s₁ = .ok (u, s')) : s'.Linked file := by
  obtain ⟨step, same, made⟩ := exists_step made
  unfold named at same
  split at same
  · next y m core =>
    subst same
    cases made
    cases run
    have bound := linked.numbered.bounded y m (calls y m core)
    have formed₁ : State.Formed file ((Change.newClass (s.info.hierarchy.bases.getD m [])).apply s) :=
      Change.formed trivial formed
    refine (linked.newClass m).setType formed₁ kind fun y' k core' => ?_
    cases core'
    refine ⟨by simp [Change.apply], fun z h => ?_, m, ?_, ?_⟩
    · exact Nat.lt_irrefl _ (linked.numbered.bounded z _ (newClass_calls h))
    · refine (calls y m core).imp_right ?_
      rintro ⟨bs, listed, v, member, same⟩
      exact ⟨bs, List.mem_append_left _ listed, v, member, same⟩
    · simp only [Change.apply, List.getElem?_append_left bound, List.getElem?_concat_length]
      simp [bound]
  · next other =>
    subst same
    cases made
    cases run
    refine linked.setType formed kind fun y k core => ?_
    exact absurd ((t.core_viaBinding binding).symm.trans core) (other y k)

theorem abstractionSignature_links {name : String} {target : TypeExpr} {fs : List FuncDecl}
    {u : Unit} (nodes : ∀ n ∈ fs.flatMap FuncDecl.nodes, n ∈ file.nodes)
    (apart : (typeSpans (target.nodes ++ fs.flatMap FuncDecl.early)).Nodup)
    (formed : s.Formed file) (bared : s.Bared file) (inside : p.scope < s.info.symbols.scopes.size)
    (unwritten : s.Unwritten (target.nodes ++ fs.flatMap FuncDecl.early))
    (stands : ∃ id, s.info.symbols.lookupLocal? p.scope name = some id ∧
      (s.info.symbols.symbol id).kind = .abstraction)
    (noted : ∀ f ∈ fs, f.info.span ∈ s.funcs) (linked : s.Linked file)
    (run : abstractionSignature p name target fs s = .ok (u, s')) : s'.Linked file := by
  obtain ⟨t, s₁, s₂, self, s₃, id, s₄, m, read, run₁, -, -, run₂, made, -, kind, typed, run₃, open_, -,
    run⟩ := abstractionSignature_steps formed bared inside stands run
  have formed₁ := run₁.formed (signing file target.nodes false).legal formed
  have formed₂ := run₂.formed (signing file [] false).legal formed₁
  have linked₁ := linked.rests formed (unwritten.mono fun n h => List.mem_append_left _ h) run₁
  have linked₂ := linked₁.rests formed₁ (by simp [State.Unwritten]) run₂
  have calls : ∀ y k, t.core = .cls y k → s₂.Calls y k := by
    intro y k core
    rw [(signing_rests run₂).calls (signing_frames run₂),
      (signing_rests run₁).calls (signing_frames run₁)]
    exact (typeExpr_calls read).2 core
  have linked₄ := named_links linked₂ formed₂ kind calls made typed
  have before : s.Run (signing file target.nodes true).may s₄ :=
    (signing_mono (fun _ h => h) run₁).trans
      ((signing_mono (by simp) run₂).trans (signing_mono (by simp) run₃))
  have formed₄ := before.formed (signing file target.nodes true).legal formed
  obtain ⟨run₅, -⟩ : s₄.Run (signing file (fs.flatMap FuncDecl.early) false).may s' ∧ _ :=
    bindingFuncs_signs nodes (fun _ h => h) ⟨formed₄, bared.run formed before, open_⟩
    (fun f member => (Regime.grows before).funcs _ (noted f member)) run
  refine linked₄.rests formed₄ (State.Unwritten.frames ?_ (signing_frames before) apart) run₅
  exact unwritten.mono fun n h => List.mem_append_right _ h

/-! ### The second pass -/

mutual

theorem signature_links {p : Place} {u : Unit} {s s' : State} (formed : s.Formed file)
    (bared : s.Bared file) (inside : p.scope < s.info.symbols.scopes.size) (linked : s.Linked file) :
    (d : Decl) → (∀ n ∈ d.nodes, n ∈ file.nodes) → (∀ n ∈ d.early, n ∈ file.early) →
    (∀ f ∈ d.funcs, f ∈ file.funcs) → p.Attached file [d] → Decl.Stands s p.scope d → (typeSpans d.early).Nodup →
    s.Unwritten d.early → signature p d s = .ok (u, s') → s'.Linked file
  | .item i, nodes, _, _, _, stands, _, unwritten, run => by
    rw [Decl.nodes] at nodes
    obtain ⟨run, -⟩ : s.Run (signing file i.early false).may s' ∧ _ :=
      itemSignature_signs nodes (fun _ h => h) ⟨formed, bared, inside⟩ stands run
    exact linked.rests formed unwritten run
  | .scope info name ds, nodes, early, listed, _, stands, apart, unwritten, run => by
    rw [Decl.nodes] at nodes
    obtain ⟨_, _, read, run⟩ := bind_ok run
    cases read
    obtain ⟨m, s₁, found, rest⟩ := bind_ok run
    obtain ⟨rfl, lt, stand⟩ := namespaceScope_stands formed inside stands found
    exact signatures_link (p := p.within s₁.info.symbols name info.span.start m) formed bared lt linked ds
      (fun n h => nodes n (List.mem_cons_of_mem _ h)) early listed
      (bared.within (nodes _ List.mem_cons_self)) stand apart unwritten rest
  | .cls info name bases items, nodes, early, _, _, stands, apart, unwritten, run => by
    rw [Decl.nodes] at nodes
    obtain ⟨_, _, read, run⟩ := bind_ok run
    cases read
    obtain ⟨id, found⟩ := Option.isSome_iff_exists.mp stands.1
    rw [found] at run
    exact classSignature_links (nodes _ List.mem_cons_self)
      (fun n h => nodes n (List.mem_cons_of_mem _ (List.mem_append_right _ h)))
      (fun n h => early n (List.mem_append_left _ h)) apart formed bared inside unwritten found stands.2
      linked run
  | .abstraction _ _ _ fs, nodes, _, _, _, stands, apart, unwritten, run => by
    rw [Decl.nodes] at nodes
    exact abstractionSignature_links
      (fun n h => nodes n (List.mem_cons_of_mem _ (List.mem_append_right _ h))) apart formed bared inside
      unwritten stands.1 stands.2 linked run
  | .refurbish _ target fs, nodes, _, listed, attached, _, _, unwritten, run => by
    rw [Decl.nodes] at nodes
    obtain ⟨run, -⟩ : s.Run (signing file (target.nodes ++ fs.flatMap FuncDecl.early) false).may s' ∧
        _ := refurbishSignature_signs listed attached
      (fun n h => nodes n (List.mem_cons_of_mem _ (List.mem_append_right _ h)))
      (fun n h => List.mem_append_left _ h) (fun n h => List.mem_append_right _ h)
      ⟨formed, bared, inside⟩ run
    exact linked.rests formed unwritten run
  | .includes _ _ _ _, _, _, _, _, _, _, _, run | .assume _ _ _, _, _, _, _, _, _, _, run
  | .attributeDef _ _ _ _, _, _, _, _, _, _, _, run => by
    cases run
    exact linked

theorem signatures_link {p : Place} {u : Unit} {s s' : State} (formed : s.Formed file)
    (bared : s.Bared file) (inside : p.scope < s.info.symbols.scopes.size) (linked : s.Linked file) :
    (ds : List Decl) →
    (∀ n ∈ Decl.nodesOf ds, n ∈ file.nodes) → (∀ n ∈ Decl.earlyOf ds, n ∈ file.early) →
    (∀ f ∈ Decl.funcsOf ds, f ∈ file.funcs) → p.Attached file ds → Decl.StandAll s p.scope ds →
    (typeSpans (Decl.earlyOf ds)).Nodup → s.Unwritten (Decl.earlyOf ds) →
    signatures p ds s = .ok (u, s') → s'.Linked file
  | [], _, _, _, _, _, _, _, run => by
    cases run
    exact linked
  | d :: ds, nodes, early, listed, attached, stands, apart, unwritten, run => by
    simp only [Decl.nodesOf, Decl.earlyOf, Decl.funcsOf, List.mem_append] at nodes early listed
    obtain ⟨_, s₁, here, run⟩ := bind_ok run
    have both := List.nodup_append.mp (typeSpans_append d.early (Decl.earlyOf ds) ▸ apart)
    have linked₁ := signature_links formed bared inside linked d (fun n h => nodes n (.inl h))
      (fun n h => early n (.inl h)) (fun f h => listed f (.inl h)) attached.head stands.1 both.1
      (unwritten.mono fun n h => List.mem_append_left _ h) here
    obtain ⟨run₁, -⟩ : s.Run (signing file d.early true).may s₁ ∧ _ :=
      signature_signs ⟨formed, bared, inside⟩ d (fun n h => nodes n (.inl h)) (fun _ h => h)
        (fun f h => listed f (.inl h)) attached.head stands.1 here
    have grown := Regime.grows run₁
    refine signatures_link (run₁.formed (signing file d.early true).legal formed)
      (bared.run formed run₁) (Nat.lt_of_lt_of_le inside grown.symbols.scopes) linked₁ ds (fun n h => nodes n (.inr h))
      (fun n h => early n (.inr h)) (fun f h => listed f (.inr h)) attached.tail
      (Decl.StandAll.mono formed grown ds inside stands.2) both.2.1 ?_ run
    refine State.Unwritten.frames ?_ (signing_frames run₁) apart
    exact unwritten.mono fun n h => List.mem_append_right _ h

end

end Resolution

end TastyLang
