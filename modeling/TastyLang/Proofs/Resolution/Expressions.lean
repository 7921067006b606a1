import TastyLang.Proofs.Resolution.Signatures
import TastyLang.Resolution.Expressions

/-!
# Expressions keep the state sound

Every expression gets a type with good names.
-/

namespace TastyLang

namespace Resolution

variable {good : String → Prop} {fs : List FuncDecl} {p : Place}

theorem spelt_unknown (spelling : Spelling good) : (Ty.unknown "").Spelt good :=
  spelling.oneLine rfl

theorem noteExpr_keeps (span : Span) {t : Ty} (spelt : t.Spelt good) :
    Keeps good fs (noteExpr span t) (·.Spelt good) := by
  refine (note_keeps ?_ ?_ ?_).bind fun _ _ => .pure spelt
  · exact fun _ => rfl
  · exact fun _ => rfl
  · exact fun _ h => { h with }

theorem noteTypeName_keeps (span : Span) : Keeps good fs (noteTypeName span) fun _ => True :=
  note_keeps (fun _ => rfl) (fun _ => rfl) fun _ h => { h with }

theorem isTypeName_keeps (e : Expr) : Keeps good fs (isTypeName e) fun _ => True :=
  Keeps.get.bind fun _ _ => .pure trivial

/-! ### Functions and symbols -/

theorem spelt_symbolType {i : Info} (spelling : Spelling good) (h : i.Spelt good)
    (id : Option SymbolId) : (i.symbolType id).Spelt good := by
  unfold Info.symbolType
  cases id with
  | none => exact spelt_unknown spelling
  | some id =>
    cases found : (i.symbols.symbol id).type with
    | none =>
      rw [Option.bind_some, found]
      exact spelt_unknown spelling
    | some t =>
      rw [Option.bind_some, found]
      exact (h.symbol spelling id).type t found

theorem Symbol.Spelt.typeOr {x : Symbol} (h : x.Spelt good) {t : Ty} (other : t.Spelt good) :
    (x.type.getD t).Spelt good := by
  cases found : x.type with
  | none => exact other
  | some u => exact h.type u found

theorem bind_keeps (spelling : Spelling good) {name : String} (one : Text.OneLine name) :
    Keeps good fs (bind p name) fun _ => True := by
  have named := spelling.oneLine one
  refine Keeps.get.bind fun s _ => ?_
  dsimp only
  split
  · exact .pure trivial
  · split
    · refine alloc_keeps ⟨named, fun t h => ?_⟩
      cases h
      exact named
    · refine alloc_keeps ⟨named, fun t h => ?_⟩
      cases h
      exact spelt_unknown spelling

theorem spelt_unify_or {h : Hierarchy} {a b t : Ty} (left : a.Spelt good) (right : b.Spelt good)
    (other : t.Spelt good) : ((Ty.unify h a b).getD t).Spelt good := by
  cases found : Ty.unify h a b with
  | none => exact other
  | some u => exact Ty.Spelt.unify found left right

theorem tupleIndexType_keeps (spelling : Spelling good) (span : Span) (i : Nat) {x : Ty}
    (spelt : x.Spelt good) : Keeps good fs (tupleIndexType span i x) (·.Spelt good) := by
  have core := spelt.deref.core
  unfold tupleIndexType
  split
  · next elems same =>
    rw [same] at core
    split
    · next t found => exact .pure (Ty.speltAll_iff.mp core t (List.mem_of_getElem? found))
    · exact .failType
  · exact .pure (spelt_unknown spelling)

theorem spelt_ofName {table : Table} (spelling : Spelling good) (h : table.Spelt good)
    {name : String} (one : Text.OneLine name) : (Ty.ofName table name).Spelt good := by
  unfold Ty.ofName
  split
  · next prim found =>
    have spelt := h prim (List.mem_of_find?_eq_some found)
    exact Ty.spelt_ofPrimitive spelt.1 spelt.2
  · exact spelling.oneLine one

theorem spelt_ofLiteral {table : Table} (spelling : Spelling good) (h : table.Spelt good)
    (kind : LiteralKind) (value : String) : (Ty.ofLiteral table kind value).Spelt good := by
  cases kind with
  | int =>
    refine spelt_ofName spelling h ?_
    unfold Ty.wholeName
    dsimp only
    split <;> rfl
  | float =>
    unfold Ty.ofLiteral
    dsimp only
    split <;> exact spelt_ofName spelling h rfl
  | null => trivial
  | string => exact spelt_ofName spelling h rfl
  | char => exact spelt_ofName spelling h rfl
  | bool => exact spelt_ofName spelling h rfl

theorem access_keeps (span : Span) (x : Expr) (name : String) (accessor : Accessor)
    (receiver : Ty) : Keeps good fs (access span x name accessor receiver) fun _ => True := by
  refine (isTypeName_keeps x).bind fun onTypeName _ => (note_keeps ?_ ?_ ?_).bind fun _ _ => ?_
  · exact fun _ => rfl
  · exact fun _ => rfl
  · exact fun _ h => { h with }
  refine Keeps.get.bind fun _ _ => ?_
  split
  · exact .pure trivial
  · exact .pure trivial

theorem oneLine_qualified : {e : Expr} → e.Flat → Text.OneLine e.qualified
  | .ident _ _, flat => flat
  | .member _ x name .dot, flat => by
    have base := oneLine_qualified (e := x) flat.1
    unfold Expr.qualified
    split
    · rfl
    · simp +ground [Text.OneLine, base, flat.2]
  | .member _ _ _ .arrow, _ | .member _ _ _ .scope, _ => rfl
  | .literal _ _ _, _ | .self _, _ | .binary _ _ _ _, _ | .unary _ _ _ _, _ | .call _ _ _, _
  | .index _ _ _, _ | .new _ _ _, _ | .delete _ _, _ | .cast _ _ _ _, _ | .tuple _ _, _
  | .tupleIndex _ _ _, _ | .range _ _ _, _ | .ternary _ _ _ _, _ | .paren _ _, _ => rfl

theorem capabilitiesOf?_keeps (receiver : Ty) : Keeps good fs (capabilitiesOf? receiver)
    fun c => ∀ x, c = some x → ∀ e ∈ x.added, e.2.Spelt good := by
  unfold capabilitiesOf?
  dsimp only
  split
  · exact .pure fun _ h => by cases h
  · refine Keeps.get.bind fun s known => .pure fun x found => ?_
    exact known.info.added _ (mem_of_lookup found)

theorem extension?_keeps (receiver : Ty) (name : String) :
    Keeps good fs (extension? receiver name) fun e => ∀ x, e = some x → x.Spelt good := by
  refine (capabilitiesOf?_keeps receiver).bind fun c spelt => ?_
  dsimp only
  split
  · next e added =>
    refine .pure fun x same => ?_
    cases same
    obtain ⟨c, rfl, found⟩ := Option.bind_eq_some_iff.mp added
    exact spelt c rfl _ (mem_of_lookup found)
  · refine Keeps.get.bind fun s known => .pure fun x found => ?_
    obtain ⟨y, listed, rfl⟩ := Option.map_eq_some_iff.mp found
    exact known.refurbished y (List.mem_of_find?_eq_some listed)

theorem requireForwarded_keeps (m x : Expr) (name : String) (receiver : Ty) :
    Keeps good fs (requireForwarded p m x name receiver) fun _ => True := by
  refine (capabilitiesOf?_keeps receiver).bind fun c _ => ?_
  split
  · exact .pure trivial
  · dsimp only
    split
    · exact .pure trivial
    · exact .fail

theorem spelt_callResult (spelling : Spelling good) : {t : Ty} → t.Spelt good →
    (callResult t).Spelt good
  | .func _ _, spelt => spelt.2
  | .via _ t, spelt => spelt_callResult spelling (t := t) spelt
  | .void, _ | .null, _ | .prim _, _ | .cls _ _, _ | .enum _, _ | .scope _, _ | .template _ _, _
  | .tuple _, _ | .pointer _ _, _ | .reference _ _, _ | .smart _ _, _ | .range _, _
  | .unknown _, _ | .invalid, _ | .absent, _ => spelt_unknown spelling

theorem plainCall_keeps (spelling : Spelling good) (fn : Expr) {t : Ty} (spelt : t.Spelt good) :
    Keeps good fs (plainCall fn t) (·.Spelt good) := by
  have result := spelt_callResult spelling spelt
  unfold plainCall
  split
  · next span _ =>
    refine Keeps.get.bind fun s known => ?_
    split
    · next found =>
      obtain ⟨id, -, same⟩ := Option.map_eq_some_iff.mp found
      refine .pure ((known.info.symbol spelling id).type _ ?_)
      rw [same]
    · exact .pure result
  · exact .pure result

theorem noteCall_keeps (span : Span) {c : ExtensionCall} (spelt : c.ext.Spelt good) :
    Keeps good fs (modifyInfo fun i => { i with
      extensionCalls := i.extensionCalls.insert span c }) fun _ => True := by
  refine note_keeps ?_ ?_ ?_
  · exact fun _ => rfl
  · exact fun _ => rfl
  intro i h
  refine { h with calls := fun at' c' found => ?_ }
  rcases getElem?_insert_or found with rfl | found
  · exact spelt
  · exact h.calls at' c' found

section

variable (spelling : Spelling good) (sound : p.Sound good fs)

include spelling sound

theorem funcResult_keeps (span : Span) :
    Keeps good fs (funcResult p span) (·.Spelt good) := by
  refine Keeps.get.bind fun s known => ?_
  split
  · next t found => exact .pure (known.info.results span t found)
  · refine (sound.demand span).bind fun _ _ => Keeps.get.bind fun s known => .pure ?_
    rw [Std.TreeMap.getD_eq_getD_getElem?]
    cases found : s.info.results[span]? with
    | none => exact spelt_unknown spelling
    | some t => exact known.info.results span t found

theorem funcType_keeps (span : Span) :
    Keeps good fs (funcType p span) (·.Spelt good) := by
  refine (funcResult_keeps spelling sound span).bind fun r spelt => ?_
  refine Keeps.get.bind fun s known => .pure ⟨Ty.speltAll_iff.mpr fun t member => ?_, spelt⟩
  split at member
  · obtain ⟨q, -, rfl⟩ := List.mem_map.mp member
    exact spelt_symbolType spelling known.info _
  · cases member

theorem useType_keeps (span : Span)
    (id : SymbolId) : Keeps good fs (useType p span id) (·.Spelt good) := by
  refine (symbolOf_keeps spelling id).bind fun sym spelt => ?_
  split
  · refine (noteTypeName_keeps span).bind fun _ _ => .pure ?_
    exact Symbol.Spelt.typeOr spelt spelt.name
  · split
    · exact funcType_keeps spelling sound _
    · exact .pure (Symbol.Spelt.typeOr spelt (spelt_unknown spelling))

theorem ident_keeps (span : Span) {name : String} (one : Text.OneLine name) :
    Keeps good fs (ident p span name) (·.Spelt good) := by
  refine (bind_keeps spelling one).bind fun id _ => (note_keeps ?_ ?_ ?_).bind fun _ _ => ?_
  · exact fun _ => rfl
  · exact fun _ => rfl
  · exact fun _ h => { h with }
  · exact useType_keeps spelling sound span id

theorem selfType_keeps (span : Span) :
    Keeps good fs (selfType p span) (·.Spelt good) := by
  unfold selfType
  split
  · exact .pure (spelt_unknown spelling)
  · next fn inside =>
    split
    · next e added => exact .pure (sound.ext fn inside e added).self
    · next c _ _ =>
      refine (note_keeps ?_ ?_ ?_).bind fun _ _ => ?_
      · exact fun _ => rfl
      · exact fun _ => rfl
      · exact fun _ h => { h with }
      refine (symbolOf_keeps spelling c).bind fun sym spelt => .pure (Ty.Spelt.pointerTo ?_ 1)
      exact Symbol.Spelt.typeOr spelt trivial
    · exact .pure (spelt_unknown spelling)

/-! ### Operators -/

theorem binaryType_keeps (span : Span) (op : Operator) (right : Expr) {l r : Ty}
    (left : l.Spelt good) (spelt : r.Spelt good) :
    Keeps good fs (binaryType p span op right l r) (·.Spelt good) := by
  have bool : (primitive p.table "bool").Spelt good := spelt_primitive spelling sound.table rfl
  cases op
  case assign =>
    unfold binaryType
    dsimp only
    split
    · exact .pure left
    · exact (requireAssignable_keeps _ _ _).bind fun _ _ => .pure left
  all_goals first
    | exact .pure left
    | exact .pure bool
    | exact Keeps.get.bind fun _ _ => .pure (spelt_unify_or left spelt left.deref)

theorem spelt_unaryType (op : Operator) {x : Ty}
    (spelt : x.Spelt good) : (unaryType p op x).Spelt good := by
  have core := spelt.deref.core
  unfold unaryType
  split
  · exact spelt_primitive spelling sound.table rfl
  · split
    · next elem _ same =>
      rw [same] at core
      exact Ty.Spelt.pointerTo (t := elem) core _
    · next same =>
      rw [same] at core
      exact core
    · exact spelt_unknown spelling
  · exact spelt.deref.pointerTo 1
  · exact spelt.deref

theorem spelt_indexType {x : Ty} (spelt : x.Spelt good) : (indexType p x).Spelt good := by
  have core := spelt.deref.core
  unfold indexType
  split
  · next base args same =>
    rw [same] at core
    cases last : args.getLast? with
    | none => exact spelt_unknown spelling
    | some t => exact Ty.speltAll_iff.mp core.2 t (List.mem_of_getLast? last)
  · next elem _ same =>
    rw [same] at core
    exact Ty.Spelt.pointerTo (t := elem) core _
  · split
    · exact spelt_primitive spelling sound.table rfl
    · exact spelt_unknown spelling
  · exact spelt_unknown spelling

/-! ### Members and calls -/

theorem outerMember_keeps {m : Expr}
    (flat : m.Flat) : Keeps good fs (outerMember p m) (·.Spelt good) := by
  have named := spelling.oneLine (oneLine_qualified flat)
  unfold outerMember
  dsimp only
  split
  · exact .pure (spelt_unknown spelling)
  · refine Keeps.get.bind fun s _ => ?_
    split
    · exact (noteTypeName_keeps _).bind fun _ _ => .pure named
    · split
      · exact useType_keeps spelling sound _ _
      · exact .pure (spelt_unknown spelling)

theorem memberType_keeps {m : Expr} (flat : m.Flat) (x : Expr) (name : String) (accessor : Accessor)
    (receiver : Ty) :
    Keeps good fs (memberType p m x name accessor receiver) (·.Spelt good) := by
  refine (access_keeps _ _ _ _ _).bind fun found _ => ?_
  split
  · refine (isTypeName_keeps x).bind fun _ _ => ?_
    split
    · exact outerMember_keeps spelling sound flat
    · exact .pure (spelt_unknown spelling)
  · exact useType_keeps spelling sound _ _

theorem forwardedType_keeps (receiver : Ty)
    (name : String) : Keeps good fs (forwardedType p receiver name) (·.Spelt good) := by
  refine (capabilitiesOf?_keeps receiver).bind fun c _ => ?_
  split
  · exact funcType_keeps spelling sound _
  · exact .pure (spelt_unknown spelling)

theorem memberCall_keeps {m : Expr} (flat : m.Flat) (x : Expr) (name : String) (accessor : Accessor)
    (receiver : Ty) :
    Keeps good fs (memberCall p m x name accessor receiver) (·.Spelt good) := by
  have last : ∀ t : Ty, t.Spelt good → Keeps good fs (do
      return callResult (← noteExpr m.span t)) (·.Spelt good) := fun t spelt =>
    (noteExpr_keeps _ spelt).bind fun _ spelt => .pure (spelt_callResult spelling spelt)
  refine (access_keeps _ _ _ _ _).bind fun found _ => ?_
  split
  · refine (isTypeName_keeps x).bind fun _ _ => ?_
    split
    · exact (outerMember_keeps spelling sound flat).bind last
    · exact (forwardedType_keeps spelling sound _ _).bind last
  · next id =>
    refine (symbolOf_keeps spelling id).bind fun sym spelt => ?_
    split
    · next t _ same =>
      refine (noteTypeName_keeps _).bind fun _ _ => noteExpr_keeps _ (spelt.type t same)
    · exact (useType_keeps spelling sound _ _).bind last

theorem receiverCall_keeps (call : Span) {m : Expr} (flat : m.Flat) (x : Expr) (name : String)
    (accessor : Accessor) (receiver : Ty) :
    Keeps good fs (receiverCall p call m x name accessor receiver) (·.Spelt good) := by
  have member := memberCall_keeps spelling sound flat x name accessor receiver
  refine (isTypeName_keeps x).bind fun _ _ => ?_
  split
  · exact member
  · refine (extension?_keeps receiver name).bind fun e spelt => ?_
    split
    · next e =>
      refine (noteCall_keeps call (spelt e rfl)).bind fun _ _ => ?_
      refine (noteExpr_keeps m.span (spelt_unknown spelling)).discard.bind fun _ _ => ?_
      exact funcResult_keeps spelling sound _
    · exact (requireForwarded_keeps m x name receiver).bind fun _ _ => member

end

/-! ### All expressions -/

mutual

theorem expr_keeps (spelling : Spelling good) (sound : p.Sound good fs) :
    (e : Expr) → e.Flat → Keeps good fs (expr p e) (·.Spelt good)
  | .literal span kind value, _ =>
    noteExpr_keeps span (spelt_ofLiteral spelling sound.table kind value)
  | .ident span name, flat =>
    (ident_keeps spelling sound span flat).bind fun _ spelt => noteExpr_keeps span spelt
  | .self span, _ =>
    (selfType_keeps spelling sound span).bind fun _ spelt => noteExpr_keeps span spelt
  | .paren span x, flat =>
    (expr_keeps spelling sound x flat).bind fun _ spelt => noteExpr_keeps span spelt
  | .binary span op l r, flat => by
    refine (expr_keeps spelling sound l flat.1).bind fun lt left => ?_
    refine (expr_keeps spelling sound r flat.2).bind fun rt right => ?_
    refine (binaryType_keeps spelling sound span op r left right).bind fun _ spelt => ?_
    exact noteExpr_keeps span spelt
  | .unary span op x _, flat =>
    (expr_keeps spelling sound x flat).bind fun _ spelt =>
      noteExpr_keeps span (spelt_unaryType spelling sound op spelt)
  | .call span fn args, flat => by
    have rest : ∀ t : Ty, t.Spelt good → Keeps good fs (do
        exprs p args
        noteExpr span t) (·.Spelt good) := fun t spelt =>
      (exprs_keeps spelling sound args flat.2).bind fun _ _ => noteExpr_keeps span spelt
    have plain : Keeps good fs (do
        let ft ← expr p fn
        let t ← plainCall fn ft
        exprs p args
        noteExpr span t) (·.Spelt good) :=
      (expr_keeps spelling sound fn flat.1).bind fun _ spelt =>
        (plainCall_keeps spelling fn spelt).bind rest
    cases fn with
    | member mspan x name accessor =>
      refine (expr_keeps spelling sound x flat.1.1).bind fun receiver _ => ?_
      exact (receiverCall_keeps spelling sound span flat.1 x name accessor receiver).bind rest
    | _ => exact plain
  | .member span x name accessor, flat => by
    refine (expr_keeps spelling sound x flat.1).bind fun receiver _ => ?_
    refine (memberType_keeps spelling sound flat x name accessor receiver).bind fun _ spelt => ?_
    exact noteExpr_keeps span spelt
  | .index span x i, flat => by
    refine (expr_keeps spelling sound x flat.1).bind fun t spelt => ?_
    refine (expr_keeps spelling sound i flat.2).discard.bind fun _ _ => ?_
    exact noteExpr_keeps span (spelt_indexType spelling sound spelt)
  | .new span type args, flat => by
    refine (exprs_keeps spelling sound args flat.2).bind fun _ _ => ?_
    refine (typeExpr_keeps spelling sound type flat.1).bind fun t spelt => ?_
    exact noteExpr_keeps span (spelt.pointerTo 1)
  | .delete span x, flat =>
    (expr_keeps spelling sound x flat).discard.bind fun _ _ => noteExpr_keeps span trivial
  | .cast span x kind type, flat => by
    refine (expr_keeps spelling sound x flat.1).bind fun src _ => ?_
    refine (typeExpr_keeps spelling sound type flat.2).bind fun dst spelt => ?_
    split
    · exact noteExpr_keeps span spelt
    · exact .failType
  | .tuple span elems, flat => by
    refine (exprTypes_keeps spelling sound elems flat).bind fun ts spelt => ?_
    refine noteExpr_keeps span (t := .tuple _) (Ty.speltAll_iff.mpr fun t member => ?_)
    obtain ⟨u, inside, rfl⟩ := List.mem_map.mp member
    exact (spelt u inside).deref
  | .tupleIndex span x i, flat => by
    refine (expr_keeps spelling sound x flat).bind fun t spelt => ?_
    exact (tupleIndexType_keeps spelling span i spelt).bind fun _ spelt => noteExpr_keeps span spelt
  | .range _ _ _, _ => .failType
  | .ternary span c y n, flat => by
    refine (expr_keeps spelling sound c flat.1).discard.bind fun _ _ => ?_
    refine (expr_keeps spelling sound y flat.2.1).bind fun a left => ?_
    refine (expr_keeps spelling sound n flat.2.2).bind fun b right => ?_
    exact Keeps.get.bind fun s _ => noteExpr_keeps span (spelt_unify_or left right left)

theorem exprs_keeps (spelling : Spelling good) (sound : p.Sound good fs) :
    (es : List Expr) → Expr.FlatAll es → Keeps good fs (exprs p es) fun _ => True
  | [], _ => .pure trivial
  | e :: es, flat =>
    (expr_keeps spelling sound e flat.1).discard.bind fun _ _ =>
      exprs_keeps spelling sound es flat.2

theorem exprTypes_keeps (spelling : Spelling good) (sound : p.Sound good fs) :
    (es : List Expr) → Expr.FlatAll es →
    Keeps good fs (exprTypes p es) fun ts => ∀ t ∈ ts, t.Spelt good
  | [], _ => .pure (by simp)
  | e :: es, flat => by
    refine (expr_keeps spelling sound e flat.1).bind fun t spelt => ?_
    refine (exprTypes_keeps spelling sound es flat.2).bind fun ts spelt' => .pure ?_
    simpa using ⟨spelt, spelt'⟩

end

theorem rangeExpr_keeps (spelling : Spelling good) (sound : p.Sound good fs) (span : Span)
    {low high : Expr} (flat : low.Flat) (flat' : high.Flat) :
    Keeps good fs (rangeExpr p span low high) (·.Spelt good) := by
  refine (expr_keeps spelling sound low flat).bind fun l left => ?_
  refine (expr_keeps spelling sound high flat').bind fun h right => ?_
  refine Keeps.get.bind fun s _ => ?_
  split
  · next t same =>
    have spelt := Ty.Spelt.unify same left.deref right.deref
    exact noteExpr_keeps span (t := .range t) spelt
  · exact .failType

end Resolution

end TastyLang

/-! ## Calls of members

What becomes of a call of a member depends on the tables of the state only: it calls an extension
(`State.extension?`), or it is refused by a binding (`State.refusal?`), or it is a call of the member
itself (`receiverCall_eq`).
-/

namespace TastyLang.Resolution

variable {s s' : State} {p : Place} {m x : Expr} {name : String} {receiver : Ty}

/-! ### What the tables say -/

/-- The capabilities of the binding that a receiver's type was named through. -/
def State.capabilitiesOf? (s : State) (receiver : Ty) : Option Capabilities :=
  if receiver.pointee.binding = "" then none else s.info.capabilities.lookup receiver.pointee.binding

/-- The extension that a name stands for at a receiver: one of its binding, or else one of its type. -/
def State.extension? (s : State) (receiver : Ty) (name : String) : Option Extension :=
  match (s.capabilitiesOf? receiver).bind fun c => c.added.lookup name with
  | some e => some e
  | none => (s.refurbished.find? fun (k, n, _) => k == receiver.pointee.text && n == name).map (·.2.2)

/-- A binding lets a member be called: it is forwarded, or called on `self` in a function of the
binding itself. -/
def Capabilities.allows (c : Capabilities) (p : Place) (x : Expr) (name : String) : Bool :=
  (c.forwarded.lookup name).isSome || (isSelf x && (p.fn.bind (·.ext)).any fun e => e.owner == c.name)

/-- The binding that does not let a member be called. -/
def State.refusal? (s : State) (p : Place) (x : Expr) (name : String) (receiver : Ty) :
    Option Capabilities :=
  (s.capabilitiesOf? receiver).filter fun c => !Capabilities.allows c p x name

/-- The call of an extension that a call of a member is. -/
def State.extensionCall? (s : State) (x : Expr) (name : String) (receiver : Ty) : Option ExtensionCall :=
  if s.info.typeNames.contains x.span then none
  else (s.extension? receiver name).map fun e => ⟨e, receiver.pointerDepth⟩

/-- A call of a member is none that a binding refuses. -/
def State.Admits (s : State) (p : Place) (x : Expr) (name : String) (receiver : Ty) : Prop :=
  s.info.typeNames.contains x.span = false → s.extension? receiver name = none →
    s.refusal? p x name receiver = none

/-- A state with the same tables. -/
structure State.SameTables (s s' : State) : Prop where
  capabilities : s'.info.capabilities = s.info.capabilities
  refurbished : s'.refurbished = s.refurbished

theorem State.SameTables.capabilitiesOf? (same : s.SameTables s') (receiver : Ty) :
    s'.capabilitiesOf? receiver = s.capabilitiesOf? receiver := by
  unfold State.capabilitiesOf?
  rw [same.capabilities]

theorem State.SameTables.extension? (same : s.SameTables s') (receiver : Ty) (name : String) :
    s'.extension? receiver name = s.extension? receiver name := by
  unfold State.extension?
  rw [same.capabilitiesOf?, same.refurbished]

theorem State.SameTables.refusal? (same : s.SameTables s') (p : Place) (x : Expr) (name : String)
    (receiver : Ty) : s'.refusal? p x name receiver = s.refusal? p x name receiver := by
  unfold State.refusal?
  rw [same.capabilitiesOf?]

/-! ### What resolution does -/

theorem capabilitiesOf?_run (receiver : Ty) (s : State) :
    capabilitiesOf? receiver s = .ok (s.capabilitiesOf? receiver, s) := by
  unfold capabilitiesOf? State.capabilitiesOf?
  split <;> rfl

theorem extension?_run (receiver : Ty) (name : String) (s : State) :
    extension? receiver name s = .ok (s.extension? receiver name, s) := by
  unfold extension? State.extension?
  change (capabilitiesOf? receiver s >>= _) = _
  rw [capabilitiesOf?_run]
  change (match (s.capabilitiesOf? receiver).bind fun c => c.added.lookup name with
    | some e => Pure.pure (some e)
    | none => _ : Resolver (Option Extension)) s = _
  cases (s.capabilitiesOf? receiver).bind fun c => c.added.lookup name <;> rfl

theorem requireForwarded_run (p : Place) (m x : Expr) (name : String) (receiver : Ty) (s : State) :
    requireForwarded p m x name receiver s =
      match s.refusal? p x name receiver with
      | some c => .error (.notForwarded c.name name m.pos)
      | none => .ok ((), s) := by
  unfold requireForwarded State.refusal?
  change (capabilitiesOf? receiver s >>= _) = _
  rw [capabilitiesOf?_run]
  cases s.capabilitiesOf? receiver with
  | none => rfl
  | some c =>
    change (if Capabilities.allows c p x name = true then Pure.pure () else fail _ : Resolver Unit) s = _
    rw [Option.filter_some]
    by_cases allowed : Capabilities.allows c p x name = true
    · rw [if_pos allowed, if_neg (by simp [allowed])]
      rfl
    · rw [if_neg allowed, if_pos (by simp [allowed])]
      rfl

/-- The call of an extension. -/
def extensionCall (p : Place) (call : Span) (m : Expr) (c : ExtensionCall) : Resolver Ty := do
  modifyInfo fun i => { i with extensionCalls := i.extensionCalls.insert call c }
  discard (noteExpr m.span (.unknown ""))
  funcResult p c.ext.decl

theorem receiverCall_eq {call : Span} {accessor : Accessor}
    (value : s.info.typeNames.contains x.span = false) :
    receiverCall p call m x name accessor receiver s =
      match s.extension? receiver name with
      | some e => extensionCall p call m ⟨e, receiver.pointerDepth⟩ s
      | none =>
        match s.refusal? p x name receiver with
        | some c => .error (.notForwarded c.name name m.pos)
        | none => memberCall p m x name accessor receiver s := by
  unfold receiverCall
  change (if s.info.typeNames.contains x.span = true then _ else _ : Resolver Ty) s = _
  rw [if_neg (by simp [value])]
  change (extension? receiver name s >>= _) = _
  rw [extension?_run]
  change (match s.extension? receiver name with
    | some e => _
    | none => _ : Resolver Ty) s = _
  cases s.extension? receiver name with
  | some e => rfl
  | none =>
    change (requireForwarded p m x name receiver s >>= _) = _
    rw [requireForwarded_run]
    cases s.refusal? p x name receiver <;> rfl

theorem receiverCall_eq_of_name {call : Span} {accessor : Accessor}
    (named : s.info.typeNames.contains x.span = true) :
    receiverCall p call m x name accessor receiver s = memberCall p m x name accessor receiver s := by
  unfold receiverCall
  change (if s.info.typeNames.contains x.span = true then _ else _ : Resolver Ty) s = _
  rw [if_pos named]

end TastyLang.Resolution
