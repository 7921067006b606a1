import Mathlib.Data.List.Find
import TastyLang.Proofs.Resolution.Charts
import TastyLang.Proofs.Resolution.Findings

/-!
# What the declarations of a file say about calls

Bindings of one simple name share one table, so a call through a binding is decided by the functions of
all of them (`File.verdict`). The third pass follows the verdict wherever it meets the call
(`Prepared.decides`).
-/

namespace TastyLang

open Resolution

/-! ### Verdicts -/

/-- What becomes of the call of a member: it calls a function that a declaration of `owner` adds, it calls
the member itself, or it is refused. -/
inductive Verdict where
  | extension (owner : String) (f : FuncDecl)
  | member
  | refused

/-- The function that bindings add under a name: the last one with a body. -/
def addedFunc? (fs : List FuncDecl) (name : String) : Option FuncDecl :=
  (fs.filter fun f => !f.body.isNone).reverse.find? fun f => name == f.name

/-- Bindings forward a name if they list it without a body. -/
def forwardsName (fs : List FuncDecl) (name : String) : Bool :=
  fs.any fun f => f.body.isNone && name == f.name

/-- The functions of all bindings with the name of the one that a receiver's type is named through. -/
def File.bindingFuncs? (file : File) (receiver : Ty) : Option (List FuncDecl) :=
  if receiver.pointee.binding = "" then none
  else if receiver.pointee.binding ∈ Decl.bindingsOf file.decls then
    some (boundTo receiver.pointee.binding file.bound)
  else none

/-- The function that refurbish declarations add to a type under a name, the last one first. -/
def File.refurb? (file : File) (info : Info) (type name : String) : Option (TypeExpr × FuncDecl) :=
  file.refurbs.reverse.find? fun r => (info.typeOfExpr r.1).text == type && r.2.name == name

/-- What the declarations of a file say about the call of a member; `inside` the functions of a binding,
`self` reaches every member. -/
def File.verdict (file : File) (info : Info) (receiver : Ty) (name : String) (inside : Bool) : Verdict :=
  match (file.bindingFuncs? receiver).bind (addedFunc? · name) with
  | some f => .extension receiver.pointee.binding f
  | none =>
    match file.refurb? info receiver.pointee.text name with
    | some r => .extension r.1.text r.2
    | none =>
      match file.bindingFuncs? receiver with
      | none => .member
      | some fs => if forwardsName fs name || inside then .member else .refused

/-- The third pass treats a call in a state as a verdict says. -/
def Verdict.Decides (v : Verdict) (s : State) (p : Place) (call : Span) (m x : Expr) (name : String)
    (accessor : Accessor) (receiver : Ty) : Prop :=
  match v with
  | .extension owner f => ∃ e, Extension.Adds e owner f ∧
    receiverCall p call m x name accessor receiver s =
      extensionCall p call m ⟨e, receiver.pointerDepth⟩ s
  | .member =>
    receiverCall p call m x name accessor receiver s = memberCall p m x name accessor receiver s
  | .refused => receiverCall p call m x name accessor receiver s =
    .error (.notForwarded receiver.pointee.binding name m.pos)

namespace Resolution

/-- The receiver is `self` in a function of the binding that its type is named through. -/
def Place.isInside (p : Place) (x : Expr) (receiver : Ty) : Bool :=
  isSelf x && (p.fn.bind (·.ext)).any fun e => e.owner == receiver.pointee.binding

variable {table : Table} {file : File} {src : String} {s s' s₁ s₂ : State}

/-! ### Tables -/

theorem Capabilities.Lists.added? {c : Capabilities} {binding : String} {fs : List FuncDecl}
    (lists : Capabilities.Lists c binding fs) (name : String) :
    Paired (fun e f => Extension.Adds e binding f) (c.added.lookup name) (addedFunc? fs name) := by
  have added := lists.added
  unfold addedFunc?
  revert added
  generalize c.added = xs, (fs.filter fun f => !f.body.isNone).reverse = ys
  intro added
  induction added with
  | nil => exact .none
  | @cons x f xs ys first _ ih =>
    obtain ⟨key, e⟩ := x
    obtain ⟨rfl, adds⟩ := first
    rw [List.lookup_cons, List.find?_cons]
    cases name == f.name with
    | true => exact .some adds
    | false => exact ih

theorem Capabilities.Lists.forwards {c : Capabilities} {binding : String} {fs : List FuncDecl}
    (lists : Capabilities.Lists c binding fs) (name : String) :
    (c.forwarded.lookup name).isSome = forwardsName fs name := by
  rw [lists.forwarded, forwardsName, Bool.eq_iff_iff, List.any_eq_true, Option.isSome_iff_ne_none, Ne,
    List.lookup_eq_none_iff]
  push Not
  simp only [List.mem_reverse, List.mem_map, List.mem_filter, Bool.and_eq_true]
  constructor
  · rintro ⟨_, ⟨f, ⟨member, bare⟩, rfl⟩, same⟩
    exact ⟨f, member, bare, by simpa using same⟩
  · rintro ⟨f, member, bare, same⟩
    exact ⟨_, ⟨f, ⟨member, bare⟩, rfl⟩, by simpa using same⟩

theorem State.Begun.capabilitiesOf? (begun : s.Begun file) (receiver : Ty) :
    Paired (fun c fs => Capabilities.Lists c receiver.pointee.binding fs) (s.capabilitiesOf? receiver)
      (file.bindingFuncs? receiver) := by
  have granted := begun.granted receiver.pointee.binding
  unfold State.capabilitiesOf? File.bindingFuncs?
  by_cases plain : receiver.pointee.binding = ""
  · rw [if_pos plain, if_pos plain]
    exact .none
  · rw [if_neg plain, if_neg plain]
    split
    · next known =>
      rw [if_pos known] at granted
      obtain ⟨c, found, lists⟩ := granted
      rw [found]
      exact .some lists
    · next unknown =>
      rw [if_neg unknown] at granted
      rw [granted]
      exact .none

theorem State.Begun.added? (begun : s.Begun file) (receiver : Ty) (name : String) :
    Paired (fun e f => Extension.Adds e receiver.pointee.binding f)
      ((s.capabilitiesOf? receiver).bind fun c => c.added.lookup name)
      ((file.bindingFuncs? receiver).bind (addedFunc? · name)) :=
  (begun.capabilitiesOf? receiver).bind fun _ _ lists => lists.added? name

theorem State.Begun.refurb? (begun : s.Begun file) (type name : String) :
    Paired (fun x r => Extension.Adds x.2.2 r.1.text r.2)
      (s.refurbished.find? fun (k, n, _) => k == type && n == name) (file.refurb? s.info type name) := by
  refine (Paired.find? begun.refurbished fun x r refurbishes => ?_).imp fun x r ⟨_, _, _, _, adds⟩ => adds
  obtain ⟨t, noted, text, own, -⟩ := refurbishes
  have known : s.info.typeOfExpr r.1 = t := by
    rw [Info.typeOfExpr, Std.TreeMap.getD_eq_getD_getElem?, noted]
    rfl
  change (x.1 == type && x.2.1 == name) = _
  rw [text, own, known]

/-! ### Decisions -/

/-- What the tables say about a call is the verdict of the declarations. -/
theorem State.Begun.verdict (begun : s.Begun file) (p : Place) (x : Expr) (receiver : Ty) (name : String) :
    match file.verdict s.info receiver name (p.isInside x receiver) with
    | .extension owner f => ∃ e, Extension.Adds e owner f ∧ s.extension? receiver name = some e
    | .member => s.extension? receiver name = none ∧ s.refusal? p x name receiver = none
    | .refused => s.extension? receiver name = none ∧
      ∃ c, s.refusal? p x name receiver = some c ∧ c.name = receiver.pointee.binding := by
  have added := begun.added? receiver name
  have refurb := begun.refurb? receiver.pointee.text name
  unfold File.verdict State.extension?
  revert added refurb
  generalize (s.capabilitiesOf? receiver).bind _ = e, (file.bindingFuncs? receiver).bind _ = f,
    s.refurbished.find? _ = x', file.refurb? _ _ _ = r
  rintro (⟨adds⟩ | _) refurb
  · exact ⟨_, adds, rfl⟩
  rcases refurb with ⟨adds⟩ | _
  · exact ⟨_, adds, rfl⟩
  -- neither adds the member, so it is up to the binding
  have bound := begun.capabilitiesOf? receiver
  unfold State.refusal?
  revert bound
  generalize s.capabilitiesOf? receiver = c, file.bindingFuncs? receiver = fs
  rintro (⟨lists⟩ | _)
  · next c fs =>
    have allows : Capabilities.allows c p x name = (forwardsName fs name || p.isInside x receiver) := by
      rw [Capabilities.allows, lists.forwards, lists.name]
      rfl
    dsimp only
    rw [Option.filter_some, allows]
    cases forwardsName fs name || p.isInside x receiver with
    | true => exact ⟨rfl, rfl⟩
    | false => exact ⟨rfl, c, rfl, lists.name⟩
  · exact ⟨rfl, rfl⟩

/-- The third pass follows the verdict of the declarations wherever it meets a call on a value. -/
theorem Prepared.decides {name : String} (read : File.read table name src = .ok file)
    (prepared : Prepared table file file.decls s₁ s₂) (run : s₂.Run (resolving table file).may s)
    (p : Place) (call : Span) (m x : Expr) (member : String) (accessor : Accessor) (receiver : Ty)
    (value : s.info.typeNames.contains x.span = false) :
    (file.verdict s₂.info receiver member (p.isInside x receiver)).Decides s p call m x member accessor
      receiver := by
  obtain ⟨capabilities, refurbished⟩ := resolving_tables run
  have same : s₂.SameTables s := ⟨capabilities, refurbished⟩
  have verdict := (prepared.begun read).verdict p x receiver member
  rw [← same.extension?, ← same.refusal?] at verdict
  have treats : receiverCall p call m x member accessor receiver s = _ := receiverCall_eq value
  revert verdict
  unfold Verdict.Decides
  cases file.verdict s₂.info receiver member (p.isInside x receiver) with
  | extension owner f =>
    rintro ⟨e, adds, found⟩
    rw [found] at treats
    exact ⟨e, adds, treats⟩
  | member =>
    rintro ⟨none, admitted⟩
    rw [none, admitted] at treats
    exact treats
  | refused =>
    rintro ⟨none, c, refused, named⟩
    rw [none, refused] at treats
    dsimp only
    rw [← named]
    exact treats

theorem Prepared.verdict_run {name : String} (read : File.read table name src = .ok file)
    (prepared : Prepared table file file.decls s₁ s₂) (run : s₂.Run (resolving table file).may s) :
    file.verdict s.info = file.verdict s₂.info := by
  have same : file.refurb? s.info = file.refurb? s₂.info := by
    funext type member
    refine List.find?_congr fun r listed => ?_
    have early := (prepared.begun read).targets r (List.mem_reverse.mp listed)
    have noted := (resolving_frames run).2 r.1.span fun late =>
      (List.nodup_append.mp (File.zones read)).2.2 _ early _ late rfl
    have type : s.info.typeOfExpr r.1 = s₂.info.typeOfExpr r.1 := by
      simp only [Info.typeOfExpr, Std.TreeMap.getD_eq_getD_getElem?, noted]
    rw [type]
  funext receiver member inside
  unfold File.verdict
  rw [same]

theorem Passed.call_entry {name : String} (read : File.read table name src = .ok file)
    (passed : Passed table file file.decls s₁ s₂ s) {span mspan : Span} {x : Expr} {member : String}
    {accessor : Accessor} {args : List Expr} {receiver : Ty}
    (node : .expr (.call span (.member mspan x member accessor) args) ∈ file.nodes)
    (value : s.info.typeNames[x.span]? = none) (typed : s.info.types[x.span]? = some receiver)
    (other : isSelf x = false) :
    match file.verdict s.info receiver member false with
    | .extension owner f => ∃ e, Extension.Adds e owner f ∧
      s.info.extensionCalls[span]? = some ⟨e, receiver.pointerDepth⟩
    | .member => s.info.extensionCalls[span]? = none
    | .refused => False := by
  obtain ⟨p, receiver', t₁, reaches, known, kept, admits, call⟩ := passed.visited_expr node
  have entry : t₁.entry (.expr x.span) = s.entry (.expr x.span) := kept.symm
  obtain rfl : receiver' = receiver := by
    have same : t₁.info.types[x.span]? = s.info.types[x.span]? := congrArg Entry.type entry
    exact Option.some.inj (known.symm.trans (same.trans typed))
  have plain : t₁.info.typeNames.contains x.span = false := by
    have same : t₁.info.typeNames[x.span]? = s.info.typeNames[x.span]? := congrArg Entry.named entry
    rw [Std.TreeMap.contains_eq_isSome_getElem?, same, value]
    rfl
  obtain ⟨capabilities, refurbished⟩ := resolving_tables reaches.run
  have same : s₂.SameTables t₁ := ⟨capabilities, refurbished⟩
  have begun := passed.begun read
  have verdict := begun.verdict p x receiver' member
  have outside : p.isInside x receiver' = false := by
    rw [Place.isInside, other]
    rfl
  have silent : (s₂.entry (.expr span)).call = none := congrArg Entry.call (begun.silent span)
  have call : s.info.extensionCalls[span]? = (t₁.extension? receiver' member).map
      fun e => ⟨e, receiver'.pointerDepth⟩ := by
    refine call.trans ?_
    rw [silent, Option.or_none, State.extensionCall?, plain]
    rfl
  rw [passed.verdict_run read passed.third]
  rw [outside, ← same.extension?, ← same.refusal?] at verdict
  revert verdict
  cases file.verdict s₂.info receiver' member false with
  | extension owner f =>
    rintro ⟨e, adds, found⟩
    exact ⟨e, adds, by rw [call, found]; rfl⟩
  | member =>
    rintro ⟨none, -⟩
    dsimp only
    rw [call, none]
    rfl
  | refused =>
    rintro ⟨none, c, refused, -⟩
    have admitted := admits plain none
    rw [refused] at admitted
    cases admitted

end Resolution

end TastyLang
