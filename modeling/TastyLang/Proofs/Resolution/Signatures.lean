import TastyLang.Proofs.Reading.Places
import TastyLang.Proofs.Resolution.Sound
import TastyLang.Resolution.Signatures

/-!
# Declarations and signatures keep the state sound

The first two passes over a file, and the written types that all passes use. After the two passes each
function of the file is waiting to be resolved and each of its classes is known. Functions added to
existing types are noted with the signatures, all others with the declarations.
-/

namespace TastyLang

variable {p : Place} {gs : List FuncDecl} {name : String} {d : FuncDecl} {target : TypeExpr}
  {i : Item}

namespace Resolution

variable {good : String → Prop} {fs : List FuncDecl}

/-- A place whose table and extension have good names, where bodies can be demanded. -/
structure Place.Sound (good : String → Prop) (fs : List FuncDecl) (p : Place) : Prop where
  table : p.table.Spelt good
  ext : ∀ st, p.fn = some st → ∀ e, st.ext = some e → e.Spelt good
  demand : ∀ span, Keeps good fs (p.demand span) fun _ => True

theorem Place.Sound.scoped (h : p.Sound good fs) (sc : ScopeId) :
    Place.Sound good fs { p with scope := sc } := ⟨h.table, h.ext, h.demand⟩

theorem Place.Sound.within (h : p.Sound good fs) (t : SymbolTable) (name : String) (pos : Pos)
    (sc : ScopeId) : Place.Sound good fs (p.within t name pos sc) := ⟨h.table, h.ext, h.demand⟩

/-! ### Written types -/

theorem newClass_keeps (bases : List Ty) : Keeps good fs (newClass bases) fun _ => True := by
  refine Keeps.get.bind fun _ _ => (note_keeps ?_ ?_ ?_).bind fun _ _ => .pure trivial
  · exact fun _ => rfl
  · exact fun _ => rfl
  · exact fun _ h => { h with }

theorem addBase_keeps (number : Nat) (base : Ty) :
    Keeps good fs (addBase number base) fun _ => True :=
  note_keeps (fun _ => rfl) (fun _ => rfl) fun _ h => { h with }

variable {t : Ty}

theorem named_keeps (spelt : t.Spelt good) (binding : String) :
    Keeps good fs (named t binding) (·.Spelt good) := by
  have core := spelt.core
  unfold named
  split
  · next same =>
    rw [same] at core
    exact Keeps.get.bind fun _ _ => (newClass_keeps _).bind fun _ _ => .pure core
  · exact .pure (spelt.viaBinding binding)

theorem spelt_primitive {table : Table} (spelling : Spelling good) (h : table.Spelt good)
    (one : Text.OneLine name) : (primitive table name).Spelt good := by
  unfold primitive
  cases found : table.primitive? name with
  | none => exact Ty.spelt_ofPrimitive (spelling.oneLine one) (spelling.oneLine one)
  | some p =>
    have spelt := h p (List.mem_of_find?_eq_some found)
    exact Ty.spelt_ofPrimitive spelt.1 spelt.2

theorem namedType_keeps (spelling : Spelling good) (sound : p.Sound good fs)
    (one : Text.OneLine name) :
    Keeps good fs (namedType p name) (·.Spelt good) := by
  unfold namedType
  split
  · next prim found =>
    have spelt := sound.table prim (List.mem_of_find?_eq_some found)
    exact .pure (Ty.spelt_ofPrimitive spelt.1 spelt.2)
  · refine Keeps.get.bind fun s known => ?_
    split
    · next sym found =>
      obtain ⟨id, -, rfl⟩ := Option.map_eq_some_iff.mp found
      have spelt := known.info.symbol spelling id
      split
      · next same => exact .pure (spelt.type _ same)
      · next same => exact .pure (spelt.type _ same)
      · next same => exact .pure (spelt.type _ same)
      · exact .pure (spelling.oneLine one)
    · exact .pure (spelling.oneLine one)

theorem noteType_keeps (span : Span) (spelt : t.Spelt good) :
    Keeps good fs (noteType span t) (·.Spelt good) := by
  refine (note_keeps ?_ ?_ ?_).bind fun _ _ => .pure spelt
  · exact fun _ => rfl
  · exact fun _ => rfl
  intro i h
  refine { h with typeExprs := fun at' u found => ?_ }
  rcases getElem?_insert_or found with rfl | found
  · exact spelt
  · exact h.typeExprs at' u found

mutual

theorem typeExpr_keeps {p : Place} (spelling : Spelling good) (sound : p.Sound good fs) :
    (t : TypeExpr) → t.Flat → Keeps good fs (typeExpr p t) (·.Spelt good)
  | .tuple span elems stars, flat => by
    refine (typeExprs_keeps spelling sound elems flat).bind fun ts spelt => ?_
    have whole : (Ty.tuple ts).Spelt good := Ty.speltAll_iff.mpr spelt
    exact noteType_keeps span (whole.pointerTo stars)
  | .func span params none stars, flat => by
    refine (typeExprs_keeps spelling sound params flat).bind fun ts spelt => ?_
    have whole : (Ty.func ts .void).Spelt good := ⟨Ty.speltAll_iff.mpr spelt, trivial⟩
    exact (Keeps.pure rfl).bind fun r same => same ▸ noteType_keeps span (whole.pointerTo stars)
  | .func span params (some result) stars, flat => by
    refine (typeExprs_keeps spelling sound params flat.1).bind fun ts spelt => ?_
    refine (typeExpr_keeps spelling sound result flat.2).bind fun r spelt' => ?_
    have whole : (Ty.func ts r).Spelt good := ⟨Ty.speltAll_iff.mpr spelt, spelt'⟩
    exact noteType_keeps span (whole.pointerTo stars)
  | .named span name args stars, flat => by
    refine (namedType_keeps spelling sound flat.1).bind fun t spelt => ?_
    refine (typeExprs_keeps spelling sound args flat.2).bind fun ts spelt' => ?_
    refine noteType_keeps span (Ty.Spelt.pointerTo ?_ stars)
    split
    · exact spelt
    · exact ⟨spelt, Ty.speltAll_iff.mpr spelt'⟩

theorem typeExprs_keeps {p : Place} (spelling : Spelling good) (sound : p.Sound good fs) :
    (ts : List TypeExpr) → TypeExpr.FlatAll ts →
    Keeps good fs (typeExprs p ts) fun us => ∀ u ∈ us, u.Spelt good
  | [], _ => .pure (by simp)
  | t :: ts, flat => by
    refine (typeExpr_keeps spelling sound t flat.1).bind fun u spelt => ?_
    refine (typeExprs_keeps spelling sound ts flat.2).bind fun us spelt' => .pure ?_
    simpa using ⟨spelt, spelt'⟩

end

/-! ### Declarations -/

theorem declareOwner_keeps (sc : ScopeId) {x : Symbol} (spelt : x.Spelt good) (inner : ScopeKind)
    (pos : Pos) : Keeps good fs (declareOwner sc x inner pos) fun _ => True := by
  refine (alloc_keeps spelt).bind fun id _ => (declare_keeps sc id pos).bind fun _ _ => ?_
  refine (newScope_keeps sc inner (some id)).bind fun members _ => ?_
  refine (modifySymbol_keeps id ?_ ?_ ?_).bind fun _ _ => .pure trivial
  · exact fun _ => rfl
  · exact fun _ => rfl
  · exact fun _ h => ⟨h.name, h.type⟩

theorem declareNamed_keeps (spelling : Spelling good) (sc : ScopeId) (one : Text.OneLine name)
    (kind : SymbolKind) (inner : ScopeKind) (pos : Pos) :
    Keeps good fs (declareOwner sc { name, kind, origin := .other pos } inner pos)
      fun _ => True := by
  have named := spelling.oneLine one
  exact declareOwner_keeps sc ⟨named, fun t h => by cases h⟩ inner pos

theorem qualifiedName_keeps (spelling : Spelling good) (id : SymbolId) :
    Keeps good fs (qualifiedName id) good := by
  refine Keeps.get.bind fun s known => .pure ?_
  have own := (known.info.symbol spelling id).name
  simp only [SymbolTable.qualified]
  split
  · exact own
  · refine List.foldlRecOn _ _ own fun name h c _ => ?_
    split
    · next o _ =>
      have owner := (known.info.symbol spelling o).name
      split
      · exact spelling.append (spelling.append owner (spelling.oneLine rfl)) h
      · exact h
    · exact h

theorem noteFunc_keeps {st : FuncState} (decl : st.decl = d) (listed : d ∈ fs) (ext : st.ext = none)
    (fresh : st.phase = .fresh) :
    Keeps good fs (noteFunc d st) fun _ => True := by
  refine ⟨fun {s _ _} sound run => ?_⟩
  cases run
  refine ⟨⟨.refl _, fun span h => ?_, fun _ h => h, ?_⟩, ⟨sound.info, sound.refurbished,
    sound.returns, fun span st' found => ?_⟩, trivial⟩
  · exact Std.TreeMap.mem_insert.mpr (.inr h)
  · rintro span ⟨st', found, active⟩
    rcases getElem?_insert_or found with rfl | found
    · rw [fresh] at active
      cases active
    · exact ⟨st', found, active⟩
  · dsimp only at found
    rw [Std.TreeMap.getElem?_insert] at found
    split at found
    · next same =>
      cases found
      refine ⟨decl ▸ listed, decl ▸ Std.LawfulEqOrd.eq_of_compare same, ?_, ?_⟩
      · rw [ext]
        exact fun _ h => by cases h
      · rw [fresh]
        exact fun h => by cases h
    · exact sound.funcs span st' found

theorem declareFunc_keeps (spelling : Spelling good) (sc : ScopeId) (one : Text.OneLine d.name)
    (listed : d ∈ fs) :
    Keeps good fs (declareFunc sc d) fun _ => True := by
  have last : ∀ cls, Keeps good fs (noteFunc d { decl := d, scope := sc, cls }) fun _ => True :=
    fun _ => noteFunc_keeps rfl listed rfl rfl
  have symbol : Symbol.Spelt good { name := d.name, kind := .func, origin := .func d.info.span
                                    static := d.info.modifiers.has .static } :=
    ⟨spelling.oneLine one, fun t h => by cases h⟩
  unfold declareFunc
  split
  · exact Keeps.get.bind fun _ _ => last _
  · refine (alloc_keeps symbol).bind fun id _ => (declare_keeps sc id _).bind fun _ _ => ?_
    exact Keeps.get.bind fun _ _ => last _

theorem declareFuncs_keeps (spelling : Spelling good) (sc : ScopeId)
    (lies : ∀ f ∈ gs, ∃ p q, f.Lies p q) (listed : ∀ f ∈ gs, f ∈ fs) :
    ∀ f ∈ gs, Keeps good fs (declareFunc sc f) fun _ => True := by
  intro f member
  obtain ⟨_, _, lies⟩ := lies f member
  exact declareFunc_keeps spelling sc lies.name (listed f member)

theorem declareVar_keeps (spelling : Spelling good) (sc : ScopeId) {d : VarDecl}
    (one : Text.OneLine d.name) : Keeps good fs (declareVar sc d) fun _ => True := by
  have name := spelling.oneLine one
  refine Keeps.bind (alloc_keeps ⟨name, fun t h => by cases h⟩) fun id _ => ?_
  refine (declare_keeps sc id _).bind fun _ _ => note_keeps ?_ ?_ ?_
  · exact fun _ => rfl
  · exact fun _ => rfl
  · exact fun _ h => { h with }

theorem declareEnum_keeps (spelling : Spelling good) (sc : ScopeId) {d : EnumDecl}
    (one : Text.OneLine d.name) (members : ∀ m ∈ d.members, m.Flat) :
    Keeps good fs (declareEnum sc d) fun _ => True := by
  unfold declareEnum
  refine (declareNamed_keeps spelling sc one _ .cls _).bind ?_
  rintro ⟨id, inner⟩ -
  refine (qualifiedName_keeps spelling id).bind fun name spelt => ?_
  refine (setType_keeps id (t := .enum name) spelt).bind fun _ _ => .forM fun m member => ?_
  have one := spelling.oneLine (members m member).name
  refine (alloc_keeps ⟨one, fun t h => ?_⟩).bind fun m' _ => declare_keeps inner m' _
  cases h
  exact spelt

theorem declareItem_keeps (spelling : Spelling good) (sc : ScopeId) {p q : Pos} (lies : i.Lies p q)
    (listed : ∀ f ∈ i.funcs, f ∈ fs) :
    Keeps good fs (declareItem sc i) fun _ => True := by
  cases lies with
  | var _ _ d => exact declareVar_keeps spelling sc d.name
  | func _ f => exact declareFunc_keeps spelling sc f.name (listed _ List.mem_cons_self)
  | enum _ d => exact declareEnum_keeps spelling sc d.name d.members
  | inject _ _ _ => exact .pure trivial

theorem declareItems_keeps (spelling : Spelling good) (sc : ScopeId) {p q : Pos}
    {items : List Item} (lies : Chain Item.Lies p items q)
    (listed : ∀ f ∈ items.flatMap Item.funcs, f ∈ fs) :
    ∀ i ∈ items, Keeps good fs (declareItem sc i) fun _ => True := by
  intro i member
  obtain ⟨_, _, lies⟩ := lies.each member
  exact declareItem_keeps spelling sc lies fun f inside =>
    listed f (List.mem_flatMap.mpr ⟨i, member, inside⟩)

theorem declareAssumed_keeps (spelling : Spelling good) (sc : ScopeId) (one : Text.OneLine name)
    (kind : AssumeKind) (pos : Pos) :
    Keeps good fs (declareAssumed sc name kind pos) fun _ => True := by
  have symbol : Keeps good fs (assumedSymbol name kind pos) fun s => s.Spelt good := by
    have named := spelling.oneLine one
    have whole : ∀ (kind : SymbolKind) {t : Ty}, t.Spelt good → Symbol.Spelt good
        { name, kind, type := some t, origin := .other pos, assumed := true } := by
      intro kind t spelt
      exact ⟨named, fun u h => by cases h; exact spelt⟩
    unfold assumedSymbol
    cases kind with
    | scope => exact .pure (whole _ named)
    | cls => exact (newClass_keeps []).bind fun _ _ => .pure (whole _ named)
    | func => exact .pure (whole _ (spelling.oneLine rfl))
    | var => exact .pure (whole _ (spelling.oneLine rfl))
  unfold declareAssumed
  refine symbol.bind fun x spelt => (alloc_keeps spelt).bind fun id _ => ?_
  split
  · exact modify_keeps fun s sound => ⟨.of_same rfl rfl rfl, { sound with }⟩
  · exact declare_keeps sc id pos

theorem namespaceScope_keeps (spelling : Spelling good) (sc : ScopeId) (one : Text.OneLine name)
    (pos : Pos) (ds : List Decl) :
    Keeps good fs (namespaceScope sc name pos ds) fun _ => True := by
  refine Keeps.get.bind fun s _ => ?_
  dsimp only
  split
  · exact .pure trivial
  · split
    · exact .fail
    · exact .pure trivial
  · refine (declareNamed_keeps spelling sc one _ .scope _).bind ?_
    rintro ⟨id, inner⟩ -
    refine (qualifiedName_keeps spelling id).bind fun full spelt => ?_
    exact (setType_keeps id (t := .scope full) spelt).bind fun _ _ => .pure trivial

theorem noteClassName_keeps (name : String) (id : SymbolId) :
    Keeps good fs (modify fun s => { s with classes := (name, id) :: s.classes }) fun _ => True :=
  modify_keeps fun _ sound => ⟨.of_same rfl rfl rfl, { sound with }⟩

theorem noteClass_keeps (span : Span) (name : String) (id : SymbolId) :
    Keeps good fs (modifyInfo fun i => { i with classes := i.classes ++ [(span, name, id)] })
      fun _ => True := by
  refine modify_keeps fun s sound => ⟨⟨.refl _, fun _ h => h, fun at' h => ?_, fun _ h => h⟩,
    { sound with info := { sound.info with } }⟩
  simp only [Info.classSymbol?, Option.isSome_map, List.lookup_append, Option.isSome_or] at h ⊢
  rw [h, Bool.true_or]

mutual

theorem declareDecl_keeps (spelling : Spelling good) (sc : ScopeId) {p q : Pos} {d : Decl} :
    d.Lies p q → (∀ f ∈ d.funcs, f ∈ fs) → Keeps good fs (declareDecl sc d) fun _ => True
  | .item i, listed => declareItem_keeps spelling sc i listed
  | .includes _ _ _, _ => .pure trivial
  | .assume _ _ _ one, _ => declareAssumed_keeps spelling sc one _ _
  | .scope _ _ one _ inner _ _, listed => by
    refine (namespaceScope_keeps spelling sc one _ _).bind fun members _ => ?_
    exact declareDecls_keeps spelling members inner listed
  | .cls _ _ one _ _ items _, listed => by
    refine (declareNamed_keeps spelling sc one _ .cls _).bind ?_
    rintro ⟨id, members⟩ -
    refine (qualifiedName_keeps spelling id).bind fun full spelt => ?_
    refine (newClass_keeps []).bind fun number _ => ?_
    refine (setType_keeps id (t := .cls full number) spelt).bind fun _ _ => ?_
    refine (noteClassName_keeps full id).bind fun _ _ => ?_
    refine (noteClass_keeps _ _ id).bind fun _ _ => .forM ?_
    exact declareItems_keeps spelling members items listed
  | .abstraction _ _ one _ _ inner, listed => by
    refine (declareNamed_keeps spelling sc one _ .cls _).bind ?_
    rintro ⟨id, members⟩ -
    refine (Keeps.forM (declareFuncs_keeps spelling members inner.funcs.lies listed)).bind ?_
    refine fun _ _ => note_keeps ?_ ?_ ?_
    · exact fun _ => rfl
    · exact fun _ => rfl
    · intro i h
      refine { h with added := fun c member => ?_ }
      rcases List.mem_cons.mp member with rfl | member
      · exact fun _ h => by cases h
      · exact h.added c member
  | .refurbish _ _ _ _ _, _ => .pure trivial
  | .attributeDef _ _ one _, _ => by
    have name := spelling.oneLine one
    refine Keeps.bind (alloc_keeps ⟨name, fun t h => by cases h⟩) fun id _ => ?_
    exact declare_keeps sc id _

theorem declareDecls_keeps (spelling : Spelling good) (sc : ScopeId) {p q : Pos}
    {ds : List Decl} : Decl.LieIn p ds q → (∀ f ∈ Decl.funcsOf ds, f ∈ fs) →
    Keeps good fs (declareDecls sc ds) fun _ => True
  | .nil, _ => .pure trivial
  | .cons first rest, listed => by
    refine (declareDecl_keeps spelling sc first ?_).bind fun _ _ =>
      declareDecls_keeps spelling sc rest ?_
    · exact fun f member => listed f (List.mem_append_left _ member)
    · exact fun f member => listed f (List.mem_append_right _ member)

end

/-! ### Signatures -/

theorem noteResult_keeps (span : Span) (spelt : t.Spelt good) :
    Keeps good fs (modifyInfo fun i => { i with results := i.results.insert span t })
      fun _ => True := by
  refine note_keeps ?_ ?_ ?_
  · exact fun _ => rfl
  · exact fun _ => rfl
  intro i h
  refine { h with results := fun at' u found => ?_ }
  rcases getElem?_insert_or found with rfl | found
  · exact spelt
  · exact h.results at' u found

variable {p₁ p₂ : Pos} {f : FuncDecl}

theorem spelt_extensionName (spelling : Spelling good) (owner : String)
    (one : Text.OneLine name) : good (extensionName owner name) := by
  refine spelling.oneLine ?_
  have clean : '\n' ∉ owner.toList.map fun c => if isNameChar c then c else '_' := by
    rw [List.mem_map]
    rintro ⟨c, -, same⟩
    split at same
    · next word =>
      rw [same] at word
      exact absurd word (by decide)
    · exact absurd same (by decide)
  rw [extensionName, Text.OneLine, Text.breaks_append, Text.breaks_append, one,
    Text.breaks_ofList]
  rw [List.count_eq_zero.mpr]
  · rfl
  · intro member
    have kept := (List.dropWhile_sublist _).subset (List.mem_reverse.mp member)
    exact clean (List.mem_reverse.mp kept)

theorem addExtension_keeps {e : Extension} (spelt : e.Spelt good) :
    Keeps good fs (addExtension e) fun _ => True := by
  refine Keeps.bind (note_keeps ?_ ?_ ?_) fun _ _ => modify_keeps fun s sound => ?_
  · exact fun _ => rfl
  · exact fun _ => rfl
  · intro i h
    refine { h with extensions := fun e' member => ?_ }
    rcases List.mem_append.mp member with member | member
    · exact h.extensions e' member
    · exact List.mem_singleton.mp member ▸ spelt
  · refine ⟨⟨.refl _, fun span h => Std.TreeMap.mem_modify.mpr h, fun _ h => h, ?_⟩,
      { sound with funcs := fun span st found => ?_ }⟩
    · rintro span ⟨st, found, active⟩
      obtain ⟨st', was, ⟨-, rfl⟩ | ⟨-, rfl⟩⟩ := getElem?_modify_or found
      · exact ⟨_, was, active⟩
      · exact ⟨_, was, active⟩
    · obtain ⟨st', was, ⟨-, rfl⟩ | ⟨-, rfl⟩⟩ := getElem?_modify_or found
      · exact sound.funcs span _ was
      · have known := sound.funcs span _ was
        refine ⟨known.listed, known.span, fun e' same => ?_, known.done⟩
        cases same
        exact spelt

theorem mem_of_lookup {α : Type} {k : String} {v : α} {xs : List (String × α)}
    (h : xs.lookup k = some v) : (k, v) ∈ xs := by
  obtain ⟨before, after, rfl, -⟩ := List.lookup_eq_some_iff.mp h
  simp

theorem modifyCapabilities_keeps (binding : String) {f : Capabilities → Capabilities}
    (added : ∀ c, (∀ e ∈ c.added, e.2.Spelt good) → ∀ e ∈ (f c).added, e.2.Spelt good) :
    Keeps good fs (modifyCapabilities binding f) fun _ => True := by
  refine note_keeps (fun i => ?_) (fun i => ?_) fun i h => ?_
  · split <;> rfl
  · split <;> rfl
  · split
    · next c found =>
      refine { h with added := fun c' member => ?_ }
      rcases List.mem_cons.mp member with rfl | member
      · exact added c (h.added (binding, c) (mem_of_lookup found))
      · exact h.added c' member
    · exact h

theorem noteFresh_keeps (home : Option ScopeId) (listed : f ∈ fs) :
    Keeps good fs (noteFunc f { decl := f, scope := home }) fun _ => True :=
  noteFunc_keeps rfl listed rfl rfl

theorem requireFound_keeps (p : Place) (names : List String) :
    Keeps good fs (requireFound p names) fun _ => True := by
  unfold requireFound
  split
  · exact .pure trivial
  · refine Keeps.get.bind fun s _ => ?_
    split
    · exact .pure trivial
    · exact .fail

section

variable (spelling : Spelling good) (sound : p.Sound good fs)

include spelling sound

theorem funcSignature_keeps (lies : f.Lies p₁ p₂) :
    Keeps good fs (funcSignature p f) fun _ => True := by
  unfold funcSignature
  refine Keeps.bind (.forM fun q member => ?_) fun _ _ => ?_
  · have flat := lies.params q member
    refine (typeExpr_keeps spelling sound q.type flat.type).bind fun t spelt => ?_
    have name := spelling.oneLine flat.name
    refine Keeps.bind (alloc_keeps ⟨name, fun u h => ?_⟩) fun id _ => ?_
    · cases h
      exact spelt.typeOf _
    · exact note_keeps (fun _ => rfl) (fun _ => rfl) fun _ h => { h with }
  · have write : ∀ result : Option Ty, (∀ t, result = some t → t.Spelt good) → Keeps good fs
        (noteResult? f.info.span result) fun _ => True := by
      intro result spelt
      cases result with
      | some t => exact noteResult_keeps _ (spelt _ rfl)
      | none => exact .pure trivial
    split
    · next r written =>
      refine Keeps.bind ((typeExpr_keeps spelling sound r (lies.result r written)).map ?_) write
      intro t spelt u same
      cases same
      exact spelt
    · dsimp only
      split
      · exact noteResult_keeps _ trivial
      · exact .pure trivial

theorem bindingFunc_keeps (binding : String) {self : Ty} (spelt : self.Spelt good)
    (lies : f.Lies p₁ p₂) : Keeps good fs (bindingFunc p binding self f) fun _ => True := by
  refine (funcSignature_keeps spelling sound lies).bind fun _ _ => ?_
  have ext : Extension.Spelt good ⟨binding, f.name, extensionName binding f.name, f.info.span,
      .reference self false⟩ := ⟨spelt_extensionName spelling binding lies.name, spelt⟩
  split
  · exact modifyCapabilities_keeps binding fun c h => h
  · refine (modifyCapabilities_keeps binding fun c h e member => ?_).bind fun _ _ =>
      addExtension_keeps ext
    rcases List.mem_cons.mp member with rfl | member
    · exact ext
    · exact h e member

theorem abstractionSignature_keeps (name : String) (flat : target.Flat)
    (lies : ∀ f ∈ gs, ∃ p₁ p₂, f.Lies p₁ p₂) :
    Keeps good fs (abstractionSignature p name target gs) fun _ => True := by
  refine (typeExpr_keeps spelling sound target flat).bind fun t spelt => ?_
  refine (modifyCapabilities_keeps name ?_).bind fun _ _ => ?_
  · exact fun c h => h
  refine (named_keeps spelt name).bind fun self spelt' => Keeps.get.bind fun s _ => ?_
  dsimp only
  split
  · exact .pure trivial
  · refine (setType_keeps _ spelt').bind fun _ _ => .forM fun f member => ?_
    obtain ⟨_, _, lies⟩ := lies f member
    exact bindingFunc_keeps spelling (sound.scoped _) name spelt' lies

theorem refurbishRest_keeps (target : TypeExpr) (spelt : t.Spelt good)
    (lies : f.Lies p₁ p₂) : Keeps good fs (do
      funcSignature p f
      let e : Extension :=
        ⟨target.text, f.name, extensionName target.text f.name, f.info.span, .reference t false⟩
      modify fun s => { s with refurbished := (t.text, f.name, e) :: s.refurbished }
      addExtension e) fun _ => True := by
  have ext : Extension.Spelt good ⟨target.text, f.name, extensionName target.text f.name,
      f.info.span, .reference t false⟩ :=
    ⟨spelt_extensionName spelling target.text lies.name, spelt⟩
  refine (funcSignature_keeps spelling sound lies).bind fun _ _ => ?_
  refine Keeps.bind (modify_keeps fun s sound => ⟨.of_same rfl rfl rfl, ?_⟩) fun _ _ =>
    addExtension_keeps ext
  refine { sound with refurbished := fun x member => ?_ }
  rcases List.mem_cons.mp member with rfl | member
  · exact ext
  · exact sound.refurbished x member

theorem refurbishFuncs_keeps (target : TypeExpr) (spelt : t.Spelt good)
    (lies : ∀ f ∈ gs, ∃ p₁ p₂, f.Lies p₁ p₂) (listed : ∀ f ∈ gs, f ∈ fs) :
    ∀ f ∈ gs, Keeps good fs (do
      noteFunc f { decl := f, scope := p.home }
      funcSignature p f
      let e : Extension :=
        ⟨target.text, f.name, extensionName target.text f.name, f.info.span, .reference t false⟩
      modify fun s => { s with refurbished := (t.text, f.name, e) :: s.refurbished }
      addExtension e) fun _ => True := by
  intro f member
  obtain ⟨_, _, lies⟩ := lies f member
  refine (noteFresh_keeps p.home (listed f member)).bind fun _ _ => ?_
  exact refurbishRest_keeps spelling sound target spelt lies

theorem refurbishSignature_keeps (flat : target.Flat) (lies : ∀ f ∈ gs, ∃ p₁ p₂, f.Lies p₁ p₂)
    (listed : ∀ f ∈ gs, f ∈ fs) :
    Keeps good fs (refurbishSignature p target gs) fun _ => True :=
  (requireFound_keeps p _).bind fun _ _ =>
    (typeExpr_keeps spelling sound target flat).bind fun _ spelt =>
      .forM (refurbishFuncs_keeps spelling sound target spelt lies listed)

theorem varSignature_keeps {d : VarDecl} (flat : ∀ t, d.type = some t → t.Flat) :
    Keeps good fs (varSignature p d) fun _ => True := by
  unfold varSignature
  split
  · exact .pure trivial
  · next te written =>
    refine (typeExpr_keeps spelling sound te (flat te written)).bind fun t spelt => ?_
    refine Keeps.get.bind fun _ _ => ?_
    split
    · exact setType_keeps _ (spelt.typeOf _)
    · exact .pure trivial

theorem itemSignature_keeps (lies : i.Lies p₁ p₂) :
    Keeps good fs (itemSignature p i) fun _ => True := by
  cases lies with
  | var _ _ lies => exact varSignature_keeps spelling sound lies.type
  | func _ lies => exact funcSignature_keeps spelling sound lies
  | enum _ _ => exact .pure trivial
  | inject _ _ _ => exact .pure trivial

theorem classSignature_keeps (id : SymbolId) {bases : List TypeExpr} (flat : TypeExpr.FlatAll bases)
    {items : List Item} (lies : ∀ i ∈ items, ∃ p₁ p₂, i.Lies p₁ p₂) :
    Keeps good fs (classSignature p id bases items) fun _ => True := by
  have each : ∀ number, ∀ base ∈ bases, Keeps good fs (baseSignature p number base)
      fun _ => True := by
    intro number base member
    have flat := TypeExpr.flatAll_iff.mp flat base member
    refine (typeExpr_keeps spelling sound base flat).bind fun t _ => ?_
    split
    · exact addBase_keeps number t
    · exact .pure trivial
  have rest : ∀ sc, Keeps good fs (items.forM (itemSignature { p with scope := sc }))
      fun _ => True := by
    refine fun sc => .forM fun i member => ?_
    obtain ⟨_, _, lies⟩ := lies i member
    exact itemSignature_keeps spelling (sound.scoped sc) lies
  refine (symbolOf_keeps spelling id).bind fun sym _ => ?_
  dsimp only
  split
  · exact (Keeps.forM (each _)).bind fun _ _ => rest _
  · exact rest _

end

mutual

theorem signature_keeps {p : Place} (spelling : Spelling good) (sound : p.Sound good fs)
    {p₁ p₂ : Pos} {d : Decl} : d.Lies p₁ p₂ → (∀ f ∈ d.funcs, f ∈ fs) →
    Keeps good fs (signature p d) fun _ => True
  | .item i, _ => itemSignature_keeps spelling sound i
  | .includes _ _ _, _ => .pure trivial
  | .assume _ _ _ _, _ => .pure trivial
  | .scope _ _ one _ inner _ _, listed => by
    refine Keeps.get.bind fun s _ => ?_
    refine (namespaceScope_keeps spelling p.scope one _ _).bind fun members _ => ?_
    exact signatures_keeps spelling (sound.within _ _ _ members) inner listed
  | .cls _ _ _ bases _ items _, _ => by
    refine Keeps.get.bind fun s _ => ?_
    split
    · exact classSignature_keeps spelling sound _ bases fun i member => items.each member
    · exact .pure trivial
  | .abstraction _ _ _ flat _ inner, _ =>
    abstractionSignature_keeps spelling sound _ flat inner.funcs.lies
  | .refurbish _ _ flat _ inner, listed =>
    refurbishSignature_keeps spelling sound flat inner.funcs.lies listed
  | .attributeDef _ _ _ _, _ => .pure trivial

theorem signatures_keeps {p : Place} (spelling : Spelling good) (sound : p.Sound good fs)
    {p₁ p₂ : Pos} {ds : List Decl} : Decl.LieIn p₁ ds p₂ → (∀ f ∈ Decl.funcsOf ds, f ∈ fs) →
    Keeps good fs (signatures p ds) fun _ => True
  | .nil, _ => .pure trivial
  | .cons first rest, listed => by
    refine (signature_keeps spelling sound first ?_).bind fun _ _ =>
      signatures_keeps spelling sound rest ?_
    · exact fun f member => listed f (List.mem_append_left _ member)
    · exact fun f member => listed f (List.mem_append_right _ member)

end

end Resolution

/-! ## Every function is noted -/

mutual

/-- The functions of a declaration that are noted with the declarations, or, with `late`, with the
signatures. -/
def Decl.notes (late : Bool) : Decl → List FuncDecl
  | .item i => if late then [] else i.funcs
  | .scope _ _ ds => Decl.notesOf late ds
  | .cls _ _ _ items => if late then [] else items.flatMap Item.funcs
  | .abstraction _ _ _ fs => if late then [] else fs
  | .refurbish _ _ fs => if late then fs else []
  | .includes _ _ _ _ | .assume _ _ _ | .attributeDef _ _ _ _ => []

def Decl.notesOf (late : Bool) : List Decl → List FuncDecl
  | [] => []
  | d :: ds => d.notes late ++ Decl.notesOf late ds

end

mutual

/-- The places of the classes of a declaration. -/
def Decl.classes : Decl → List Span
  | .scope _ _ ds => Decl.classesOf ds
  | .cls info _ _ _ => [info.span]
  | _ => []

def Decl.classesOf : List Decl → List Span
  | [] => []
  | d :: ds => d.classes ++ Decl.classesOf ds

end

mutual

theorem Decl.mem_notes {f : FuncDecl} : (d : Decl) → f ∈ d.funcs →
    f ∈ d.notes false ∨ f ∈ d.notes true
  | .item _, h | .cls _ _ _ _, h | .abstraction _ _ _ _, h => .inl h
  | .refurbish _ _ _, h => .inr h
  | .scope _ _ ds, h => Decl.mem_notesOf ds h
  | .includes _ _ _ _, h | .assume _ _ _, h | .attributeDef _ _ _ _, h => .inl h

theorem Decl.mem_notesOf {f : FuncDecl} : (ds : List Decl) → f ∈ Decl.funcsOf ds →
    f ∈ Decl.notesOf false ds ∨ f ∈ Decl.notesOf true ds
  | [], h => .inl h
  | d :: ds, h => by
    rcases List.mem_append.mp h with h | h
    · exact (Decl.mem_notes d h).imp (List.mem_append_left _) (List.mem_append_left _)
    · exact (Decl.mem_notesOf ds h).imp (List.mem_append_right _) (List.mem_append_right _)

end

namespace Resolution

variable {good : String → Prop} {fs : List FuncDecl}

/-- The functions are noted and the classes are known. -/
structure State.Knows (s : State) (gs : List FuncDecl) (classes : List Span) : Prop where
  funcs : ∀ f ∈ gs, f.info.span ∈ s.funcs
  classes : ∀ span ∈ classes, (s.info.classSymbol? span).isSome

variable {s s' : State}

namespace State.Knows

theorem nothing (s : State) : s.Knows [] [] := ⟨by simp, by simp⟩

theorem mono {classes : List Span} (h : s.Knows gs classes)
    (leads : s.Leads s') : s'.Knows gs classes :=
  ⟨fun f member => leads.funcs _ (h.funcs f member),
    fun span member => leads.classes _ (h.classes span member)⟩

theorem append {s : State} {gs gs' : List FuncDecl} {classes classes' : List Span}
    (h : s.Knows gs classes) (h' : s.Knows gs' classes') :
    s.Knows (gs ++ gs') (classes ++ classes') :=
  ⟨fun f member => (List.mem_append.mp member).elim (h.funcs f) (h'.funcs f),
    fun span member => (List.mem_append.mp member).elim (h.classes span) (h'.classes span)⟩

theorem funcsOnly {s : State} (h : ∀ f ∈ gs, f.info.span ∈ s.funcs) :
    s.Knows gs [] := ⟨h, by simp⟩

end State.Knows

/-! ### What the declarations note -/

variable {u : Unit}

theorem noteFunc_notes {st : FuncState}
    (run : noteFunc d st s = .ok (u, s')) : d.info.span ∈ s'.funcs := by
  cases run
  exact Std.TreeMap.mem_insert_self

theorem declareFunc_notes {sc : ScopeId}
    (run : declareFunc sc d s = .ok (u, s')) : d.info.span ∈ s'.funcs := by
  unfold declareFunc at run
  split at run
  · obtain ⟨_, _, _, run⟩ := bind_ok run
    exact noteFunc_notes run
  · obtain ⟨_, _, _, run⟩ := bind_ok run
    obtain ⟨_, _, _, run⟩ := bind_ok run
    obtain ⟨_, _, _, run⟩ := bind_ok run
    exact noteFunc_notes run

theorem declareItem_notes {sc : ScopeId}
    (run : declareItem sc i s = .ok (u, s')) : ∀ f ∈ i.funcs, f.info.span ∈ s'.funcs := by
  cases i with
  | func d =>
    intro f member
    rw [List.mem_singleton.mp member]
    exact declareFunc_notes run
  | var d => exact fun _ h => by cases h
  | enum d => exact fun _ h => by cases h
  | inject info text => exact fun _ h => by cases h

theorem noteClass_knows {span : Span} {id : SymbolId}
    (run : modifyInfo (fun i => { i with classes := i.classes ++ [(span, name, id)] }) s =
      .ok (u, s')) : (s'.info.classSymbol? span).isSome := by
  cases run
  simp [Info.classSymbol?, List.lookup_append]

mutual

theorem declareDecl_knows (spelling : Spelling good) {sc : ScopeId} {p q : Pos} {d : Decl}
    {s s' : State} {u : Unit} (sound : s.Sound good fs) : d.Lies p q →
    (∀ f ∈ d.funcs, f ∈ fs) → declareDecl sc d s = .ok (u, s') →
    s'.Knows (d.notes false) d.classes
  | .item _, _, run => .funcsOnly (declareItem_notes run)
  | .includes _ _ _, _, _ | .assume _ _ _ _, _, _ | .refurbish _ _ _ _ _, _, _
  | .attributeDef _ _ _ _, _, _ => .nothing _
  | .scope _ _ one _ inner _ _, listed, run => by
    obtain ⟨members, _, sound, _, _, _, run⟩ :=
      (namespaceScope_keeps spelling sc one _ _).first_ok sound run
    exact declareDecls_knows spelling sound inner listed run
  | .cls _ _ one _ _ items _, listed, run => by
    obtain ⟨⟨id, members⟩, _, sound, _, _, _, run⟩ :=
      (declareNamed_keeps spelling sc one _ .cls _).first_ok sound run
    obtain ⟨full, _, sound, _, _, spelt, run⟩ := (qualifiedName_keeps spelling id).first_ok sound run
    obtain ⟨number, _, sound, _, _, _, run⟩ := (newClass_keeps []).first_ok sound run
    obtain ⟨_, _, sound, _, _, _, run⟩ :=
      (setType_keeps id (t := .cls full number) spelt).first_ok sound run
    obtain ⟨_, _, sound, _, _, _, run⟩ := (noteClassName_keeps full id).first_ok sound run
    obtain ⟨_, _, sound, _, noted, _, run⟩ := (noteClass_keeps _ _ id).first_ok sound run
    have each := declareItems_keeps spelling members items listed
    obtain ⟨leads, _, _⟩ := (Keeps.forM each).run sound run
    refine ⟨fun f member => ?_, fun span member => ?_⟩
    · obtain ⟨i, member, inside⟩ := List.mem_flatMap.mp member
      obtain ⟨_, _, _, _, ran, after⟩ := Keeps.forM_ok each sound run member
      exact after.funcs _ (declareItem_notes ran f inside)
    · rw [List.mem_singleton.mp member]
      exact leads.classes _ (noteClass_knows noted)
  | .abstraction _ _ one _ _ inner, listed, run => by
    obtain ⟨⟨id, members⟩, _, sound, _, _, _, run⟩ :=
      (declareNamed_keeps spelling sc one _ .cls _).first_ok sound run
    have each := declareFuncs_keeps spelling members inner.funcs.lies listed
    obtain ⟨_, s₁, declared, run⟩ := bind_ok run
    refine .funcsOnly fun f member => ?_
    obtain ⟨_, _, _, _, ran, after⟩ := Keeps.forM_ok each sound declared member
    have noted := after.funcs _ (declareFunc_notes ran)
    cases run
    exact noted

theorem declareDecls_knows (spelling : Spelling good) {sc : ScopeId} {p q : Pos} {ds : List Decl}
    {s s' : State} {u : Unit} (sound : s.Sound good fs) : Decl.LieIn p ds q →
    (∀ f ∈ Decl.funcsOf ds, f ∈ fs) → declareDecls sc ds s = .ok (u, s') →
    s'.Knows (Decl.notesOf false ds) (Decl.classesOf ds)
  | .nil, _, _ => .nothing _
  | .cons first rest, listed, run => by
    have here := fun f member => listed f (List.mem_append_left _ member)
    have there := fun f member => listed f (List.mem_append_right _ member)
    obtain ⟨_, _, sound₁, _, run₁, _, run⟩ :=
      (declareDecl_keeps spelling sc first here).first_ok sound run
    obtain ⟨leads, -, -⟩ := (declareDecls_keeps spelling sc rest there).run sound₁ run
    exact ((declareDecl_knows spelling sound first here run₁).mono leads).append
      (declareDecls_knows spelling sound₁ rest there run)

end

/-! ### What the signatures note -/

theorem refurbishSignature_notes (spelling : Spelling good) (sound : p.Sound good fs)
    (flat : target.Flat) (lies : ∀ f ∈ gs, ∃ p₁ p₂, f.Lies p₁ p₂) (listed : ∀ f ∈ gs, f ∈ fs)
    (known : s.Sound good fs) (run : refurbishSignature p target gs s = .ok (u, s')) :
    ∀ f ∈ gs, f.info.span ∈ s'.funcs := by
  intro f member
  obtain ⟨_, _, known, _, _, _, run⟩ := (requireFound_keeps p _).first_ok known run
  obtain ⟨t, _, known, _, _, spelt, run⟩ :=
    (typeExpr_keeps spelling sound target flat).first_ok known run
  have each := refurbishFuncs_keeps spelling sound target spelt lies listed
  obtain ⟨s₁, s₂, known, _, ran, after⟩ := Keeps.forM_ok each known run member
  obtain ⟨_, _, known, _, noted, _, ran⟩ :=
    (noteFresh_keeps p.home (listed f member)).first_ok known ran
  obtain ⟨_, _, lies⟩ := lies f member
  obtain ⟨leads, _, _⟩ := (refurbishRest_keeps spelling sound target spelt lies).run known ran
  exact (leads.trans after).funcs _ (noteFunc_notes noted)

mutual

theorem signature_knows {p : Place} (spelling : Spelling good) (sound : p.Sound good fs)
    {p₁ p₂ : Pos} {d : Decl} {s s' : State} {u : Unit} (known : s.Sound good fs) :
    d.Lies p₁ p₂ → (∀ f ∈ d.funcs, f ∈ fs) → signature p d s = .ok (u, s') →
    s'.Knows (d.notes true) []
  | .item _, _, _ | .includes _ _ _, _, _ | .assume _ _ _ _, _, _ | .cls _ _ _ _ _ _ _, _, _
  | .abstraction _ _ _ _ _ _, _, _ | .attributeDef _ _ _ _, _, _ => .nothing _
  | .scope _ _ one _ inner _ _, listed, run => by
    obtain ⟨_, _, known, _, _, _, run⟩ := Keeps.get.first_ok known run
    obtain ⟨members, _, known, _, _, _, run⟩ :=
      (namespaceScope_keeps spelling p.scope one _ _).first_ok known run
    exact signatures_knows spelling (sound.within _ _ _ members) known inner listed run
  | .refurbish _ _ flat _ inner, listed, run =>
    .funcsOnly (refurbishSignature_notes spelling sound flat inner.funcs.lies listed known run)

theorem signatures_knows {p : Place} (spelling : Spelling good) (sound : p.Sound good fs)
    {p₁ p₂ : Pos} {ds : List Decl} {s s' : State} {u : Unit} (known : s.Sound good fs) :
    Decl.LieIn p₁ ds p₂ → (∀ f ∈ Decl.funcsOf ds, f ∈ fs) → signatures p ds s = .ok (u, s') →
    s'.Knows (Decl.notesOf true ds) []
  | .nil, _, _ => .nothing _
  | .cons first rest, listed, run => by
    have here := fun f member => listed f (List.mem_append_left _ member)
    have there := fun f member => listed f (List.mem_append_right _ member)
    obtain ⟨_, _, known₁, _, run₁, _, run⟩ :=
      (signature_keeps spelling sound first here).first_ok known run
    obtain ⟨leads, -, -⟩ := (signatures_keeps spelling sound rest there).run known₁ run
    exact ((signature_knows spelling sound known first here run₁).mono leads).append
      (signatures_knows spelling sound known₁ rest there run)

end

end Resolution

end TastyLang
