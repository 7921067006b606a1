import TastyLang.Proofs.Compilation.Lines
import TastyLang.Proofs.Evaluation

/-!
# Where includes go

The collector decides for each use whether the header or the source asks for its include; emission
decides again where the text with that use goes. A file is written as a list of parts, each on one
of the two sheets (`decl_eq_parts`), and each part comes with the entries of the uses in its text.
`compile_places_includes` compares the two: what the header uses is in the list of the header, but
for the strays. These are the bodies of functions that are defined in the header, and members that
stand in a class of the header although they are marked to be left out of it.
-/

namespace TastyLang

/-! ### Lists of entries -/

namespace IncludeSet

variable {s : IncludeSet} {e : IncludeEntry}

theorem mem_header_add {x : IncludeEntry} {inHeader : Bool} :
    e ∈ (s.add x inHeader).header ↔ e ∈ s.header ∨ e.path ≠ "" ∧ (e, true) = (x, inHeader) := by
  unfold add
  split
  · next ignored =>
    refine ⟨.inl, fun h => h.elim id ?_⟩
    rintro ⟨named, same⟩
    cases same
    simpa [named] using ignored
  · next counts =>
    have named : x.path ≠ "" := fun empty => counts (by simp [empty])
    cases inHeader with
    | true =>
      refine List.mem_append.trans (or_congr_right ?_)
      rw [List.mem_singleton]
      refine ⟨?_, fun h => congrArg Prod.fst h.2⟩
      rintro rfl
      exact ⟨named, rfl⟩
    | false =>
      have same : (if s.sourced.contains x then s
          else { s with sourced := s.sourced ++ [x] }).header = s.header := by split <;> rfl
      rw [if_neg Bool.false_ne_true, same]
      exact ⟨.inl, fun h => h.elim id fun other => nomatch other.2⟩

theorem mem_header_addAll {es : List (IncludeEntry × Bool)} :
    e ∈ (s.addAll es).header ↔ e ∈ s.header ∨ e.path ≠ "" ∧ (e, true) ∈ es := by
  unfold addAll
  induction es generalizing s with
  | nil => simp
  | cons x es ih =>
    rw [List.foldl_cons, ih, mem_header_add, or_assoc, ← and_or_left, List.mem_cons]

def Has (s : IncludeSet) (e : IncludeEntry) : Prop := e ∈ s.header ∨ e ∈ s.source

theorem has_iff : s.Has e ↔ e ∈ s.header ∨ e ∈ s.sourced := by
  unfold Has source
  by_cases inHeader : e ∈ s.header
  · simp [inHeader]
  · simp [inHeader]

theorem has_add {x : IncludeEntry} {inHeader : Bool} :
    (s.add x inHeader).Has e ↔ s.Has e ∨ e.path ≠ "" ∧ e = x := by
  rw [has_iff, has_iff]
  unfold add
  split
  · next ignored =>
    refine ⟨.inl, fun h => h.elim id ?_⟩
    rintro ⟨named, rfl⟩
    exact .inl (by simpa [named] using ignored)
  · next counts =>
    have named : x.path ≠ "" := fun empty => counts (by simp [empty])
    have same : (e.path ≠ "" ∧ e = x) ↔ e = x := ⟨And.right, fun h => ⟨h ▸ named, h⟩⟩
    rw [same]
    cases inHeader with
    | true => simp [or_assoc, or_comm]
    | false =>
      simp only [Bool.false_eq_true, if_false]
      split
      · next known =>
        refine ⟨.inl, fun h => h.elim id ?_⟩
        rintro rfl
        exact .inr (List.contains_iff_mem.mp known)
      · simp [or_assoc]

theorem has_addAll {es : List (IncludeEntry × Bool)} :
    (s.addAll es).Has e ↔ s.Has e ∨ e.path ≠ "" ∧ ∃ b, (e, b) ∈ es := by
  unfold addAll
  induction es generalizing s with
  | nil => simp
  | cons x es ih =>
    rw [List.foldl_cons, ih, has_add, or_assoc, ← and_or_left]
    refine or_congr_right (and_congr_right fun _ => ?_)
    simp only [List.mem_cons, exists_or]
    refine or_congr_left ⟨?_, ?_⟩
    · rintro rfl
      exact ⟨x.2, rfl⟩
    · rintro ⟨b, same⟩
      exact congrArg Prod.fst same

end IncludeSet

/-! ### The uses of a declaration -/

namespace Include.Context

variable (c : Context)

/-- What the head of a function uses; the values of parameters stand in one of its heads only. -/
def head (defaults : Bool) (f : FuncDecl) : List IncludeEntry :=
  (f.params.flatMap fun p =>
    c.storage p.storage ++ c.typeExpr p.type ++ if defaults then c.exprIn p.value else []) ++
  match f.result, c.info with
  | some t, _ => c.typeExpr t
  | none, some info => c.ty (info.result f)
  | none, none => []

def body (f : FuncDecl) : List IncludeEntry :=
  match f.body with
  | some b => c.block b
  | none => []

theorem func_eq (f : FuncDecl) (shown : Bool) :
    c.func f shown = placed shown (c.head true f) ++ placed false (c.body f) := rfl

theorem head_subset (f : FuncDecl) : c.head false f ⊆ c.head true f := by
  intro e member
  simp only [head, List.mem_append, List.mem_flatMap, Bool.false_eq_true, if_false, if_true,
    List.not_mem_nil, or_false] at member ⊢
  refine member.imp_left ?_
  rintro ⟨p, inside, h⟩
  exact ⟨p, inside, .inl h⟩

def variableUses (withValue : Bool) (d : VarDecl) : List IncludeEntry :=
  c.declared d ++ if withValue then c.exprIn d.value else []

def enumUses (d : EnumDecl) : List IncludeEntry := d.members.flatMap fun m => c.exprIn m.value

/-- What a member uses inside of its class. -/
def memberUses : Item → List IncludeEntry
  | .var d => c.variableUses (!Emission.isStaticField d) d
  | .func f => c.head true f
  | .enum d => c.enumUses d
  | .inject _ _ => []

/-- What a member uses outside of its class. -/
def outsideUses : Item → List IncludeEntry
  | .func f => if f.body.isSome then c.head false f ++ c.body f else []
  | .var d => if Emission.isStaticField d then c.variableUses true d else []
  | .enum _ | .inject _ _ => []

theorem mem_placed {e : IncludeEntry} {b inHeader : Bool} {es : List IncludeEntry} :
    (e, b) ∈ placed inHeader es ↔ e ∈ es ∧ inHeader = b := by
  unfold placed
  rw [List.mem_map]
  constructor
  · rintro ⟨_, member, same⟩
    cases same
    exact ⟨member, rfl⟩
  · rintro ⟨member, rfl⟩
    exact ⟨e, member, rfl⟩

end Include.Context

/-! ### The parts of a file -/

namespace Emission

open Include (Context)

/-- A piece of one of the sheets and what it uses. The strays are uses that the collector counts
for the source, wherever the text stands. -/
structure Part where
  sheet : Sheet
  text : Emitter Unit
  uses : List IncludeEntry := []
  strays : List IncludeEntry := []

def Part.emit (p : Part) : Writer Unit := on p.sheet p.text

def emitAll (ps : List Part) : Writer Unit := ps.forM Part.emit

@[simp] theorem emitAll_nil : emitAll [] = pure () := rfl

@[simp] theorem emitAll_cons (p : Part) (ps : List Part) :
    emitAll (p :: ps) = (do p.emit; emitAll ps) := rfl

@[simp] theorem emitAll_append (ps qs : List Part) :
    emitAll (ps ++ qs) = (do emitAll ps; emitAll qs) := by
  induction ps with
  | nil => simp
  | cons p ps ih => simp [ih]

theorem emitAll_map {α : Type} (xs : List α) (part : α → Part) :
    emitAll (xs.map part) = xs.forM fun x => (part x).emit := by
  induction xs with
  | nil => rfl
  | cons x xs ih => exact congrArg (bind (part x).emit) (funext fun _ => ih)

theorem emitAll_flatMap {α : Type} (xs : List α) (parts : α → List Part) :
    emitAll (xs.flatMap parts) = xs.forM fun x => emitAll (parts x) := by
  induction xs with
  | nil => rfl
  | cons x xs ih =>
    rw [List.flatMap_cons, emitAll_append, ih]
    rfl

variable (c : Context) (info : Info)

def funcParts (f : FuncDecl) (visible : Bool) : List Part :=
  let ms := f.info.modifiers
  let prototype := (ms.lead ++ ·) <$> signature info "" f "" true
  match f.body with
  | none => [{ sheet := sheetOf visible, text := declared f.info prototype, uses := c.head true f }]
  | some b =>
    if visible && isInline f then
      [{ sheet := .header
         text := do
          prepend f.info
          definition info (lineOf f.info) prototype b
          append f.info
         uses := c.head true f
         strays := c.block b }]
    else if visible && !ms.has .static && !isMain f then
      [{ sheet := .header, text := declared f.info prototype, uses := c.head true f },
       { sheet := .source
         text := definition info (lineOf f.info) (sourceHead info f false) b
         uses := c.head false f ++ c.block b }]
    else
      [{ sheet := .source
         text := do
          prepend f.info
          definition info (lineOf f.info) (sourceHead info f true) b
          append f.info
         uses := c.head true f ++ c.block b }]

def globalParts (d : VarDecl) (visible : Bool) : List Part :=
  let ms := d.info.modifiers
  let shown := visible && !ms.has .static && !(info.varType d).anonymous
  if shown then
    if ms.has .constexpr then
      [{ sheet := .header
         text := declared d.info (variableText info d d.name ms true)
         uses := c.variableUses true d }]
    else
      { sheet := .header
        text := declared d.info (variableText info d d.name (ms.insert .external) false)
        uses := c.variableUses false d } ::
      if ms.has .external then []
      else
        [{ sheet := .source
           text := do
            align (lineOf d.info)
            let ms' := if ms.has .const then ms.insert .external else ms
            write ((← variableText info d d.name ms' true) ++ ";")
           uses := c.variableUses true d }]
  else
    [{ sheet := .source
       text := declared d.info (variableText info d d.name ms (!ms.has .external))
       uses := c.variableUses (!ms.has .external) d }]

def itemParts (visible : Bool) (i : Item) : List Part :=
  let shown := visible && !i.info.generated.noHeader
  match i with
  | .var d => globalParts c info d shown
  | .func f => funcParts c info f shown
  | .enum d => [{ sheet := sheetOf shown, text := enum info d, uses := c.enumUses d }]
  | .inject di text => [{ sheet := sheetOf shown, text := inject (lineOf di) text }]

/-- A class and what its members need outside of it. -/
def classParts (d : DeclInfo) (name : String) (bases : List TypeExpr) (items : List Item)
    (visible : Bool) : List Part :=
  { sheet := sheetOf visible
    text := do
      prepend d
      align (lineOf d)
      write (classHead info name bases)
      modify (·.indent)
      d.generated.inherited.forM generatedText
      append d
      modify (·.dedent)
      modify (·.ownLine "public:")
      modify (·.indent)
      items.forM (classMember info name)
      modify (·.dedent)
      align (endLineOf d)
      write "\x7d;"
    uses := c.typeExprs bases ++
      (items.filter fun i => !i.info.generated.noHeader).flatMap c.memberUses
    strays := (items.filter fun i => i.info.generated.noHeader).flatMap c.memberUses } ::
  items.map fun i =>
    { sheet := .source, text := memberDefinition info name i, uses := c.outsideUses i }

def extensionParts (visible : Bool) (f : FuncDecl) : List Part :=
  match info.extensionFor? f with
  | none => []
  | some e =>
    (if visible then
      [{ sheet := .header
         text := do
          align (lineOf f.info)
          write ((← extensionSignature info e f true) ++ ";")
         uses := c.ty e.self ++ c.head true f }]
    else []) ++
    match f.body with
    | none => []
    | some b =>
      [{ sheet := .source
         text := definition info (lineOf f.info) (extensionSignature info e f (!visible)) b
         uses := c.ty e.self ++ c.head (!visible) f ++ c.block b }]

mutual

/-- What a declaration gives to the sheets, in the order in which it is written. -/
def parts (visible : Bool) (d : Decl) : List Part :=
  match d with
  | .item i => itemParts c info visible i
  | .scope di name ds =>
    let shown := visible && !di.generated.noHeader
    let sheets := (if shown then [Sheet.header] else [])
      ++ (if needsSource info shown (.scope di name ds) then [.source] else [])
    (sheets.map fun s => { sheet := s, text := openScope di name }) ++ partsOf shown ds ++
      sheets.map fun s => { sheet := s, text := closeScope di }
  | .cls di name bases items =>
    classParts c info di name bases items (visible && !di.generated.noHeader)
  | .abstraction di _ _ fs | .refurbish di _ fs =>
    fs.flatMap (extensionParts c info (visible && !di.generated.noHeader))
  | .includes _ _ _ _ | .assume _ _ _ | .attributeDef _ _ _ _ => []

def partsOf (visible : Bool) : List Decl → List Part
  | [] => []
  | d :: ds => parts visible d ++ partsOf visible ds

end

/-! ### Writing the parts -/

variable {c info}

theorem func_eq_parts (f : FuncDecl) (visible : Bool) :
    func info f visible = emitAll (funcParts c info f visible) := by
  unfold func funcParts
  dsimp only
  cases f.body with
  | none => simp [Part.emit]
  | some b =>
    dsimp only
    split
    · simp [Part.emit]
    · split <;> simp [Part.emit]

theorem global_eq_parts (d : VarDecl) (visible : Bool) :
    global info d visible = emitAll (globalParts c info d visible) := by
  unfold global globalParts
  dsimp only
  split
  · split
    · simp [Part.emit]
    · split <;> simp [Part.emit, *]
  · simp [Part.emit]

theorem item_eq_parts (visible : Bool) (i : Item) :
    item info visible i = emitAll (itemParts c info visible i) := by
  cases i with
  | var d => exact global_eq_parts d _
  | func f => exact func_eq_parts f _
  | enum d => simp [item, itemParts, Part.emit]
  | inject di text => simp [item, itemParts, Part.emit]

theorem extension_eq_parts (visible : Bool) (f : FuncDecl) :
    Emission.extension info visible f = emitAll (extensionParts c info visible f) := by
  unfold Emission.extension extensionParts
  cases info.extensionFor? f with
  | none => rfl
  | some e =>
    dsimp only
    cases visible <;> cases f.body <;> simp [Part.emit]

mutual

theorem decl_eq_parts : ∀ (visible : Bool) (d : Decl),
    decl info visible d = emitAll (parts c info visible d)
  | visible, .item i => by rw [decl, parts, item_eq_parts]
  | visible, .scope di name ds => by
    rw [decl, parts, emitAll_append, emitAll_append, emitAll_map, emitAll_map, ← decls_eq_parts,
      bind_assoc]
    rfl
  | visible, .cls di name bases items => by
    rw [decl, parts]
    unfold cls classParts
    rw [emitAll_cons, emitAll_map]
    rfl
  | visible, .abstraction di name target fs | visible, .refurbish di target fs => by
    rw [decl, parts, emitAll_flatMap]
    exact congrArg fs.forM (funext (extension_eq_parts _))
  | visible, .includes _ _ _ _ | visible, .assume _ _ _ | visible, .attributeDef _ _ _ _ => by
    rw [decl, parts]
    rfl

theorem decls_eq_parts : ∀ (visible : Bool) (ds : List Decl),
    decls info visible ds = emitAll (partsOf c info visible ds)
  | visible, [] => by
    rw [decls, partsOf]
    rfl
  | visible, d :: ds => by
    rw [decls, partsOf, emitAll_append, decl_eq_parts, decls_eq_parts]

end

/-! ### Requests for the parts -/

/-- The collector asks for what a part uses where the part stands, and for the strays somewhere. -/
structure Part.Requested (p : Part) (rs : List (IncludeEntry × Bool)) : Prop where
  uses : ∀ e ∈ p.uses, ∃ b, (e, b) ∈ rs ∧ (p.sheet = .header → b = true)
  strays : ∀ e ∈ p.strays, ∃ b, (e, b) ∈ rs

namespace Part.Requested

variable {p : Part} {rs rs' : List (IncludeEntry × Bool)}

theorem mono (h : p.Requested rs) (more : rs ⊆ rs') : p.Requested rs' where
  uses e member := (h.uses e member).imp fun _ found => found.imp_left (more ·)
  strays e member := (h.strays e member).imp fun _ found => more found

theorem bare (none : p.uses = []) (stray : p.strays = []) : p.Requested rs where
  uses e member := by
    rw [none] at member
    cases member
  strays e member := by
    rw [stray] at member
    cases member

theorem source (side : p.sheet = .source) (uses : ∀ e ∈ p.uses, ∃ b, (e, b) ∈ rs)
    (stray : p.strays = []) : p.Requested rs where
  uses e member := (uses e member).imp fun _ found =>
    ⟨found, fun header => nomatch side.symm.trans header⟩
  strays e member := by
    rw [stray] at member
    cases member

theorem placed {shown : Bool} (side : p.sheet = sheetOf shown)
    (uses : ∀ e ∈ p.uses, (e, shown) ∈ rs) (strays : ∀ e ∈ p.strays, ∃ b, (e, b) ∈ rs) :
    p.Requested rs where
  uses e member := by
    refine ⟨shown, uses e member, fun header => ?_⟩
    rw [side] at header
    cases shown with
    | true => rfl
    | false => cases header
  strays := strays

end Part.Requested

theorem head_requested {f : FuncDecl} {shown : Bool} {e : IncludeEntry} (h : e ∈ c.head true f) :
    (e, shown) ∈ c.func f shown := by
  rw [c.func_eq]
  exact List.mem_append_left _ (Context.mem_placed.mpr ⟨h, rfl⟩)

theorem body_requested {f : FuncDecl} {shown : Bool} {b : Block} (body : f.body = some b)
    {e : IncludeEntry} (h : e ∈ c.block b) : (e, false) ∈ c.func f shown := by
  rw [c.func_eq]
  refine List.mem_append_right _ (Context.mem_placed.mpr ⟨?_, rfl⟩)
  unfold Context.body
  rwa [body]

theorem definition_requested {f : FuncDecl} {shown defaults : Bool} {b : Block}
    (body : f.body = some b) {e : IncludeEntry} (h : e ∈ c.head defaults f ++ c.block b) :
    ∃ b, (e, b) ∈ c.func f shown := by
  rcases List.mem_append.mp h with h | h
  · cases defaults with
    | true => exact ⟨shown, head_requested h⟩
    | false => exact ⟨shown, head_requested (c.head_subset f h)⟩
  · exact ⟨false, body_requested body h⟩

theorem func_requested {f : FuncDecl} {visible : Bool} {p : Part}
    (member : p ∈ funcParts c info f visible) : p.Requested (c.func f visible) := by
  unfold funcParts at member
  cases body : f.body with
  | none =>
    rw [body] at member
    obtain rfl := List.mem_singleton.mp member
    exact .placed rfl (fun _ => head_requested) (fun _ h => nomatch h)
  | some b =>
    rw [body] at member
    dsimp only at member
    split at member
    · next inlined =>
      obtain ⟨rfl, -⟩ := (Bool.and_eq_true _ _).mp inlined
      obtain rfl := List.mem_singleton.mp member
      exact .placed rfl (fun _ => head_requested) fun _ h => ⟨false, body_requested body h⟩
    · split at member
      · next shown =>
        have shown : visible = true := by
          rw [Bool.and_assoc, Bool.and_eq_true] at shown
          exact shown.1
        subst shown
        rcases List.mem_cons.mp member with rfl | member
        · exact .placed rfl (fun _ => head_requested) (fun _ h => nomatch h)
        · obtain rfl := List.mem_singleton.mp member
          exact .source rfl (fun _ => definition_requested body) rfl
      · obtain rfl := List.mem_singleton.mp member
        exact .source rfl (fun _ => definition_requested body) rfl

theorem declared_requested {d : VarDecl} {inClass shown : Bool} {e : IncludeEntry}
    (h : e ∈ c.declared d) : (e, shown) ∈ c.var d inClass shown :=
  List.mem_append_left _ (Context.mem_placed.mpr ⟨h, rfl⟩)

theorem value_requested {d : VarDecl} {inClass shown : Bool} {e : IncludeEntry}
    (h : e ∈ c.exprIn d.value) :
    (e, shown && (d.info.modifiers.has .constexpr || inClass && !d.info.modifiers.has .static)) ∈
      c.var d inClass shown :=
  List.mem_append_right _ (Context.mem_placed.mpr ⟨h, rfl⟩)

theorem variable_requested {d : VarDecl} {inClass shown withValue : Bool} {e : IncludeEntry}
    (h : e ∈ c.variableUses withValue d) : ∃ b, (e, b) ∈ c.var d inClass shown := by
  unfold Context.variableUses at h
  rcases List.mem_append.mp h with h | h
  · exact ⟨_, declared_requested h⟩
  · split at h
    · exact ⟨_, value_requested h⟩
    · cases h

theorem variable_shown {d : VarDecl} {inClass shown withValue : Bool} {e : IncludeEntry}
    (counts : withValue = true →
      (d.info.modifiers.has .constexpr || inClass && !d.info.modifiers.has .static) = true)
    (h : e ∈ c.variableUses withValue d) : (e, shown) ∈ c.var d inClass shown := by
  unfold Context.variableUses at h
  rcases List.mem_append.mp h with h | h
  · exact declared_requested h
  · split at h
    · next withValue =>
      have requested := @value_requested c d inClass shown e h
      rwa [counts withValue, Bool.and_true] at requested
    · cases h

theorem global_requested {d : VarDecl} {visible : Bool} {p : Part}
    (member : p ∈ globalParts c info d visible) : p.Requested (c.var d false visible) := by
  unfold globalParts at member
  dsimp only at member
  split at member
  · next shown =>
    have shown : visible = true := by
      rw [Bool.and_assoc, Bool.and_eq_true] at shown
      exact shown.1
    subst shown
    split at member
    · next constant =>
      obtain rfl := List.mem_singleton.mp member
      refine .placed rfl (fun _ => variable_shown fun _ => ?_) (fun _ h => nomatch h)
      rw [constant, Bool.true_or]
    · rcases List.mem_cons.mp member with rfl | member
      · exact .placed rfl (fun _ => variable_shown (fun h => nomatch h)) (fun _ h => nomatch h)
      · split at member
        · cases member
        · obtain rfl := List.mem_singleton.mp member
          exact .source rfl (fun _ => variable_requested) rfl
  · obtain rfl := List.mem_singleton.mp member
    exact .source rfl (fun _ => variable_requested) rfl

theorem item_requested {visible : Bool} {i : Item} {p : Part}
    (member : p ∈ itemParts c info visible i) : p.Requested (c.item false visible i) := by
  cases i with
  | var d => exact (global_requested member).mono (List.subset_append_right _ _)
  | func f => exact (func_requested member).mono (List.subset_append_right _ _)
  | enum d =>
    obtain rfl := List.mem_singleton.mp member
    exact .placed rfl
      (fun _ h => List.mem_append_right _ (Context.mem_placed.mpr ⟨h, rfl⟩)) (fun _ h => nomatch h)
  | inject di text =>
    obtain rfl := List.mem_singleton.mp member
    exact .bare rfl rfl

theorem member_requested {i : Item} {shown : Bool} {e : IncludeEntry} (h : e ∈ c.memberUses i) :
    (e, shown && !i.info.generated.noHeader) ∈ c.item true shown i := by
  refine List.mem_append_right _ ?_
  cases i with
  | var d =>
    refine variable_shown (fun counts => ?_) h
    cases constant : d.info.modifiers.has .constexpr
    · simpa [isStaticField, constant] using counts
    · rfl
  | func f => exact head_requested h
  | enum d => exact Context.mem_placed.mpr ⟨h, rfl⟩
  | inject di text => cases h

theorem outside_requested {i : Item} {shown : Bool} {e : IncludeEntry} (h : e ∈ c.outsideUses i) :
    ∃ b, (e, b) ∈ c.item true shown i := by
  suffices ∃ b, (e, b) ∈ match i with
      | .var d => c.var d true (shown && !i.info.generated.noHeader)
      | .func f => c.func f (shown && !i.info.generated.noHeader)
      | .enum _ | .inject _ _ => [] by
    obtain ⟨b, found⟩ := this
    cases i with
    | var | func => exact ⟨b, List.mem_append_right _ found⟩
    | enum | inject => cases found
  unfold Context.outsideUses at h
  cases i with
  | var d =>
    dsimp only at h
    split at h
    · exact variable_requested h
    · cases h
  | func f =>
    dsimp only at h
    split at h
    · next defined =>
      obtain ⟨b, body⟩ := Option.isSome_iff_exists.mp defined
      rw [Context.body, body] at h
      exact definition_requested body h
    · cases h
  | enum | inject => cases h

theorem class_requested {visible : Bool} {di : DeclInfo} {name : String} {bases : List TypeExpr}
    {items : List Item} {p : Part}
    (member : p ∈ classParts c info di name bases items (visible && !di.generated.noHeader)) :
    p.Requested (c.decl visible (.cls di name bases items)) := by
  rw [Context.decl]
  have inside {e : IncludeEntry} {b : Bool} {i : Item} (member : i ∈ items)
      (h : (e, b) ∈ c.item true (visible && !di.generated.noHeader) i) :
      (e, b) ∈ Context.requested di (visible && !di.generated.noHeader) ++
        Context.placed (visible && !di.generated.noHeader) (c.typeExprs bases) ++
        items.flatMap (c.item true (visible && !di.generated.noHeader)) :=
    List.mem_append_right _ (List.mem_flatMap.mpr ⟨i, member, h⟩)
  unfold classParts at member
  rcases List.mem_cons.mp member with rfl | member
  · refine .placed rfl (fun e h => ?_) fun e h => ?_
    · rcases List.mem_append.mp h with h | h
      · exact List.mem_append_left _ (List.mem_append_right _ (Context.mem_placed.mpr ⟨h, rfl⟩))
      · obtain ⟨i, member, h⟩ := List.mem_flatMap.mp h
        obtain ⟨member, kept⟩ := List.mem_filter.mp member
        refine inside member ?_
        have requested := @member_requested c i (visible && !di.generated.noHeader) e h
        rwa [kept, Bool.and_true] at requested
    · obtain ⟨i, member, h⟩ := List.mem_flatMap.mp h
      exact ⟨_, inside (List.mem_filter.mp member).1 (member_requested h)⟩
  · obtain ⟨i, written, rfl⟩ := List.mem_map.mp member
    refine .source rfl (fun e h => ?_) rfl
    obtain ⟨b, requested⟩ := outside_requested h
    exact ⟨b, inside written requested⟩

theorem extension_requested (known : c.info = some info) {visible : Bool} {f : FuncDecl}
    {fs : List FuncDecl} {p : Part} (function : f ∈ fs)
    (member : p ∈ extensionParts c info visible f) : p.Requested (c.added fs visible) := by
  unfold extensionParts at member
  split at member
  · cases member
  · next e found =>
    have asked : Context.placed visible (c.ty e.self) ++ c.func f visible ⊆ c.added fs visible := by
      intro r h
      refine List.mem_flatMap.mpr ⟨f, function, ?_⟩
      rw [known]
      dsimp only
      rwa [found]
    refine Part.Requested.mono ?_ asked
    have self {x : IncludeEntry} (h : x ∈ c.ty e.self) :
        (x, visible) ∈ Context.placed visible (c.ty e.self) ++ c.func f visible :=
      List.mem_append_left _ (Context.mem_placed.mpr ⟨h, rfl⟩)
    rw [List.mem_append] at member
    rcases member with member | member
    · split at member
      · next shown =>
        subst shown
        obtain rfl := List.mem_singleton.mp member
        have side : Sheet.header = sheetOf true := rfl
        refine .placed side (fun x h => ?_) (fun _ h => nomatch h)
        exact (List.mem_append.mp h).elim self fun h =>
          List.mem_append_right _ (head_requested h)
      · cases member
    · split at member
      · cases member
      · next b body =>
        obtain rfl := List.mem_singleton.mp member
        refine .source rfl (fun x h => ?_) rfl
        dsimp only at h
        rw [List.append_assoc] at h
        rcases List.mem_append.mp h with h | h
        · exact ⟨visible, self h⟩
        · obtain ⟨b, requested⟩ := definition_requested body h
          exact ⟨b, List.mem_append_right _ requested⟩

mutual

theorem decl_requested (known : c.info = some info) : ∀ (visible : Bool) (d : Decl) {p : Part},
    p ∈ parts c info visible d → p.Requested (c.decl visible d)
  | visible, .item i, p, member => by
    rw [parts] at member
    rw [Context.decl]
    exact item_requested member
  | visible, .scope di name ds, p, member => by
    rw [parts, List.mem_append, List.mem_append] at member
    rw [Context.decl]
    rcases member with (member | member) | member
    · obtain ⟨_, -, rfl⟩ := List.mem_map.mp member
      exact .bare rfl rfl
    · exact (decls_requested known _ ds member).mono (List.subset_append_right _ _)
    · obtain ⟨_, -, rfl⟩ := List.mem_map.mp member
      exact .bare rfl rfl
  | visible, .cls di name bases items, p, member => by
    rw [parts] at member
    exact class_requested member
  | visible, .abstraction di name target fs, p, member
  | visible, .refurbish di target fs, p, member => by
    rw [parts] at member
    obtain ⟨f, function, member⟩ := List.mem_flatMap.mp member
    rw [Context.decl]
    exact (extension_requested known function member).mono (List.subset_append_right _ _)
  | visible, .includes _ _ _ _, p, member | visible, .assume _ _ _, p, member
  | visible, .attributeDef _ _ _ _, p, member => by
    rw [parts] at member
    cases member

theorem decls_requested (known : c.info = some info) : ∀ (visible : Bool) (ds : List Decl)
    {p : Part}, p ∈ partsOf c info visible ds → p.Requested (c.decls visible ds)
  | visible, [], p, member => by
    rw [partsOf] at member
    cases member
  | visible, d :: ds, p, member => by
    rw [partsOf, List.mem_append] at member
    rw [Context.decls]
    rcases member with member | member
    · exact (decl_requested known visible d member).mono (List.subset_append_left _ _)
    · exact (decls_requested known visible ds member).mono (List.subset_append_right _ _)

end

/-- Writes the parts between the preamble and the end of the guard. -/
def assembled (o : EmitOptions) (includes : IncludeSet) (ps : List Part) : Writer Unit := do
  preamble o includes
  emitAll ps
  unless o.pragmaOnce do on .header (modify (·.directive "#endif"))

theorem unit_eq_assembled (o : EmitOptions) (includes : IncludeSet) (file : File) :
    unit info o includes file = assembled o includes (partsOf c info true file.decls) := by
  unfold unit assembled
  rw [decls_eq_parts]

end Emission

/-! ### Compiled files -/

open Emission

/-- The parts of a file; `ext` is the extension of headers. -/
def Analysis.parts (a : Analysis) (table : Table) (ext : String) : List Part :=
  partsOf ⟨table, some a.info, ext⟩ a.info true a.file.decls

/-- The list of the header has what the parts in the header use, but for the strays; what the parts
of the source use, and the strays, one of the two lists has. -/
structure Emission.Part.Placed (p : Part) (s : IncludeSet) : Prop where
  uses : ∀ e ∈ p.uses, e.path ≠ "" → e ∈ s.header ∨ p.sheet = .source ∧ e ∈ s.source
  strays : ∀ e ∈ p.strays, e.path ≠ "" → e ∈ s.header ∨ e ∈ s.source

theorem Emission.Part.Requested.placed_addAll {p : Part} {rs : List (IncludeEntry × Bool)}
    (h : p.Requested rs) : p.Placed (({} : IncludeSet).addAll rs) where
  uses e member named := by
    obtain ⟨b, found, inHeader⟩ := h.uses e member
    cases side : p.sheet with
    | header =>
      cases inHeader side
      exact .inl (IncludeSet.mem_header_addAll.mpr (.inr ⟨named, found⟩))
    | source =>
      exact (IncludeSet.has_addAll.mpr (.inr ⟨named, b, found⟩)).imp_right fun inside => ⟨rfl, inside⟩
  strays e member named := IncludeSet.has_addAll.mpr (.inr ⟨named, h.strays e member⟩)

theorem File.emit_ok {file : File} {table : Table} {info : Option Info} {o : EmitOptions}
    {u : CppUnit} (h : file.emit table info o = .ok u) :
    ∃ (eo : EmitOptions) (sheets : Sheets),
      unit (info.getD {}) eo (file.includes table info eo.headerExt) file {} = .ok ((), sheets) ∧
      u = ⟨sheets.header.text, sheets.source.text, file.includes table info eo.headerExt⟩ := by
  obtain ⟨⟨_, sheets⟩, run, h⟩ := except_bind_ok h
  exact ⟨_, sheets, run, (Except.ok.inj h).symm⟩

/-- The texts of a compiled file are its parts between the preamble and the end of the guard, and
each part has its includes in place. -/
theorem compile_places_includes {table : Table} {o : CompileOptions} {name src : String}
    {a : Analysis} {c : Compiled} (analysis : analyze table name src = .ok a)
    (compiled : compile table o name src = .ok c) :
    ∃ (eo : EmitOptions) (sheets : Sheets),
      assembled eo c.unit.includes (a.parts table eo.headerExt) {} = .ok ((), sheets) ∧
      c.unit.header = sheets.header.text ∧ c.unit.source = sheets.source.text ∧
      ∀ p ∈ a.parts table eo.headerExt, p.Placed c.unit.includes := by
  obtain ⟨a', again, compiled⟩ := except_bind_ok compiled
  obtain rfl := Except.ok.inj (again.symm.trans analysis)
  obtain ⟨unit, emitted, compiled⟩ := except_bind_ok compiled
  cases compiled
  obtain ⟨eo, sheets, run, rfl⟩ := File.emit_ok (mapError_ok emitted)
  refine ⟨eo, sheets, ?_, rfl, rfl, fun p member => ?_⟩
  · rw [Analysis.parts, ← unit_eq_assembled]
    exact run
  · exact (decls_requested rfl true a'.file.decls member).placed_addAll

def pairText : String := "fn f(copy t: (int, int)) {
}
"

/-- The header of a function with a tuple as its parameter includes what declares tuples. -/
theorem compile_places_includes_of_tuple :
    ∃ a c, analyze Table.default "main.tasty" pairText = .ok a ∧
      compile Table.default {} "main.tasty" pairText = .ok c ∧
      c.unit.includes.header = [⟨"tuple", false⟩] ∧
      ∃ (eo : EmitOptions) (sheets : Sheets),
        assembled eo c.unit.includes (a.parts Table.default eo.headerExt) {} = .ok ((), sheets) ∧
        c.unit.header = sheets.header.text ∧ c.unit.source = sheets.source.text ∧
        ∀ p ∈ a.parts Table.default eo.headerExt, p.Placed c.unit.includes := by
  have found : (compiled? Table.default {} "main.tasty" pairText).any (fun r =>
      r.2.unit.includes.header = [⟨"tuple", false⟩]) = true := by
    rw [compiled?, compile, analyze, pairText, File.read_ofList]
    decide +kernel
  obtain ⟨⟨a, c⟩, steps, found⟩ := (Option.any_eq_true _ _).mp found
  obtain ⟨analysis, compiled⟩ := compiled?_some steps
  exact ⟨a, c, analysis, compiled, of_decide_eq_true found,
    compile_places_includes analysis compiled⟩

/-- Whether the header has a part with a stray that its list lacks. -/
def Compiled.lacks (c : Compiled) (ps : List Part) (e : IncludeEntry) : Bool :=
  (ps.any fun p => p.sheet = .header && p.strays.contains e) && !c.unit.includes.header.contains e

theorem Compiled.lacks_spec {c : Compiled} {ps : List Part} {e : IncludeEntry}
    (h : c.lacks ps e = true) :
    (∃ p ∈ ps, p.sheet = .header ∧ e ∈ p.strays) ∧ e ∉ c.unit.includes.header := by
  simpa [lacks] using h

def inlineText : String := "inline fn f() {
  copy t = (1, 2);
}
"

def leftOutText : String := "class A {
  @NoHeader copy t: (int, int);
}
"

/-- The header of a function that is defined there, and that of a class with a member that is to be
left out, use a tuple without the include. -/
theorem header_lacks_strays :
    (∃ a c, analyze Table.default "main.tasty" inlineText = .ok a ∧
      compile Table.default {} "main.tasty" inlineText = .ok c ∧
      (∃ p ∈ a.parts Table.default ".hpp", p.sheet = .header ∧ ⟨"tuple", false⟩ ∈ p.strays) ∧
      ⟨"tuple", false⟩ ∉ c.unit.includes.header) ∧
    (∃ a c, analyze Table.default "main.tasty" leftOutText = .ok a ∧
      compile Table.default {} "main.tasty" leftOutText = .ok c ∧
      (∃ p ∈ a.parts Table.default ".hpp", p.sheet = .header ∧ ⟨"tuple", false⟩ ∈ p.strays) ∧
      ⟨"tuple", false⟩ ∉ c.unit.includes.header) := by
  have lacking {text : String} (found : (compiled? Table.default {} "main.tasty" text).any
      (fun r => r.2.lacks (r.1.parts Table.default ".hpp") ⟨"tuple", false⟩) = true) :
      ∃ a c, analyze Table.default "main.tasty" text = .ok a ∧
        compile Table.default {} "main.tasty" text = .ok c ∧
        (∃ p ∈ a.parts Table.default ".hpp", p.sheet = .header ∧ ⟨"tuple", false⟩ ∈ p.strays) ∧
        ⟨"tuple", false⟩ ∉ c.unit.includes.header := by
    obtain ⟨⟨a, c⟩, steps, found⟩ := (Option.any_eq_true _ _).mp found
    obtain ⟨analysis, compiled⟩ := compiled?_some steps
    exact ⟨a, c, analysis, compiled, c.lacks_spec found⟩
  refine ⟨lacking ?_, lacking ?_⟩
  · rw [compiled?, compile, analyze, inlineText, File.read_ofList]
    decide +kernel
  · rw [compiled?, compile, analyze, leftOutText, File.read_ofList]
    decide +kernel

end TastyLang
