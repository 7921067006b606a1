import Mathlib.Data.List.Find
import Mathlib.Data.List.Perm.Subperm
import TastyLang.Proofs.Evaluation
import TastyLang.Proofs.Resolution.Dereferencing
import TastyLang.Proofs.Resolution.Forwarding

/-!
# Calls through abstract bindings

A call on a value whose type is named through a binding is decided by the functions that the bindings of
that name have (`File.bindingVerdict`), and only where the type is no pointer: behind a pointer the name is
gone (`calls_follow_bindings`).
-/

namespace TastyLang

open Resolution

variable {table table' : Table} {file wider : File} {name name' src src' : String} {info info' : Info}
  {binding type member : String} {receiver t : Ty} {inside : Bool}

/-! ### What a binding says -/

/-- What the functions of the bindings of one name and the functions that are added to their type say
about the call of a member. -/
def File.bindingVerdict (file : File) (info : Info) (binding type name : String) (inside : Bool) : Verdict :=
  match addedFunc? (boundTo binding file.bound) name with
  | some f => .extension binding f
  | none =>
    match file.refurb? info type name with
    | some r => .extension r.1.text r.2
    | none => if forwardsName (boundTo binding file.bound) name || inside then .member else .refused

theorem File.verdict_eq (through : receiver.pointee = .via binding t) (named : binding ≠ "")
    (listed : binding ∈ Decl.bindingsOf file.decls) :
    file.verdict info receiver member inside = file.bindingVerdict info binding t.text member inside := by
  have own : receiver.pointee.binding = binding := by rw [through]; rfl
  have text : receiver.pointee.text = t.text := by rw [through]; rfl
  have funcs : file.bindingFuncs? receiver = some (boundTo binding file.bound) := by
    rw [File.bindingFuncs?, own, if_neg named, if_pos listed]
  rw [File.verdict, File.bindingVerdict, funcs, own, text]
  rfl

/-- Members are looked up behind a type like this. -/
def Ty.Leads : Ty → Prop
  | .pointer _ _ | .smart _ _ | .reference _ _ => True
  | _ => False

theorem Ty.pointee_via (plain : ¬ t.Leads) : (Ty.via binding t).pointee = .via binding t := by
  cases t <;> first | rfl | exact absurd trivial plain

theorem Ty.pointee_via_of_leads (leads : t.Leads) : (Ty.via binding t).pointee = t.pointee := by
  cases t <;> first | rfl | cases leads

theorem File.verdict_congr {receiver' : Ty} (same : receiver.pointee = receiver'.pointee) :
    file.verdict info receiver member inside = file.verdict info receiver' member inside := by
  unfold File.verdict File.bindingFuncs?
  rw [same]

/-! ### Functions of one binding -/

mutual

theorem Decl.boundTo_of_not_mem : (d : Decl) → binding ∉ d.bindings → boundTo binding d.bound = []
  | .scope _ _ ds, other => Decl.boundTo_bindingsOf ds other
  | .abstraction _ other _ fs, apart => by
    have differ : other ≠ binding := fun same => apart (List.mem_singleton.mpr same.symm)
    simp [Decl.bound, boundTo, differ]
  | .item _, _ | .includes _ _ _ _, _ | .assume _ _ _, _ | .cls _ _ _ _, _ | .refurbish _ _ _, _
  | .attributeDef _ _ _ _, _ => rfl

theorem Decl.boundTo_bindingsOf : (ds : List Decl) → binding ∉ Decl.bindingsOf ds →
    boundTo binding (Decl.boundOf ds) = []
  | [], _ => rfl
  | d :: ds, other => by
    rw [Decl.bindingsOf, List.mem_append, not_or] at other
    rw [Decl.boundOf, boundTo_append, Decl.boundTo_of_not_mem d other.1, Decl.boundTo_bindingsOf ds other.2]
    rfl

end

theorem Decl.mem_bindingsOf {at' : DeclInfo} {target : TypeExpr} {fs : List FuncDecl} {ds : List Decl}
    (listed : .abstraction at' binding target fs ∈ ds) : binding ∈ Decl.bindingsOf ds := by
  induction ds with
  | nil => cases listed
  | cons d ds ih =>
    rw [Decl.bindingsOf]
    rcases List.mem_cons.mp listed with rfl | listed
    · exact List.mem_append_left _ (List.mem_singleton_self binding)
    · exact List.mem_append_right _ (ih listed)

theorem boundTo_of_alone {at' : DeclInfo} {target : TypeExpr} {fs : List FuncDecl}
    (listed : .abstraction at' binding target fs ∈ file.decls)
    (alone : (Decl.bindingsOf file.decls).count binding = 1) : boundTo binding file.bound = fs := by
  unfold File.bound
  generalize file.decls = ds at listed alone
  induction ds with
  | nil => cases listed
  | cons d ds ih =>
    rw [Decl.bindingsOf, List.count_append] at alone
    rw [Decl.boundOf, boundTo_append]
    rcases List.mem_cons.mp listed with rfl | listed
    · rw [Decl.bindings, List.count_singleton_self] at alone
      rw [Decl.boundTo_bindingsOf ds (List.count_eq_zero.mp (by omega)), List.append_nil]
      rw [Decl.bound, boundTo, List.filter_eq_self.mpr (by simp), List.map_map]
      exact List.map_id fs
    · have some' := List.count_pos_iff.mpr (Decl.mem_bindingsOf listed)
      rw [Decl.boundTo_of_not_mem d (List.count_eq_zero.mp (by omega)), List.nil_append]
      exact ih listed (by omega)

/-! ### Calls on variables -/

/-- What resolution leaves at a call that a verdict was given for. -/
def Verdict.Noted (v : Verdict) (info : Info) (call : Span) (depth : Nat) : Prop :=
  match v with
  | .extension owner f => ∃ e, Extension.Adds e owner f ∧ info.extensionCalls[call]? = some ⟨e, depth⟩
  | .member => info.extensionCalls[call]? = none
  | .refused => False

theorem Resolution.Passed.call_noted {s₁ s₂ s : State} (read : File.read table name src = .ok file)
    (passed : Passed table file file.decls s₁ s₂ s) {span mspan : Span} {x : Expr} {accessor : Accessor}
    {args : List Expr} (node : .expr (.call span (.member mspan x member accessor) args) ∈ file.nodes)
    (value : s.info.typeNames[x.span]? = none) (typed : s.info.types[x.span]? = some receiver)
    (other : isSelf x = false) :
    (file.verdict s.info receiver member false).Noted s.info span receiver.pointerDepth :=
  passed.call_entry read node value typed other

/-- The third pass treats calls through the bindings of a name as the functions of all these say. -/
structure File.Follows (table : Table) (file : File) (binding : String) : Prop where
  decides : ∀ {s₁ s₂ s p call m x member accessor receiver t}, Prepared table file file.decls s₁ s₂ →
    s₂.Run (resolving table file).may s → s.info.typeNames.contains x.span = false →
    receiver.pointee = .via binding t →
    (file.bindingVerdict s₂.info binding t.text member (p.isInside x receiver)).Decides s p call m x member
      accessor receiver
  notes : ∀ {info span mspan x member accessor args receiver t}, file.resolve table = .ok info →
    .expr (.call span (.member mspan x member accessor) args) ∈ file.nodes →
    info.typeNames[x.span]? = none → info.types[x.span]? = some receiver → isSelf x = false →
    receiver.pointee = .via binding t →
    (file.bindingVerdict info binding t.text member false).Noted info span receiver.pointerDepth

theorem File.follows (read : File.read table name src = .ok file) (named : binding ≠ "")
    (listed : binding ∈ Decl.bindingsOf file.decls) : file.Follows table binding where
  decides prepared run value through := by
    rw [← File.verdict_eq through named listed]
    exact prepared.decides read run _ _ _ _ _ _ _ value
  notes resolved node value typed other through := by
    obtain ⟨s₁, s₂, s, passed, rfl⟩ := File.read_passed read resolved
    rw [← File.verdict_eq through named listed]
    exact passed.call_noted read node value typed other

/-- A call on a variable that is declared by value with a type named through a binding. Unless something
lies behind the type, it calls what the binding adds, else what is added to the type, else it calls a
member that the binding forwards, and otherwise the third pass refuses it. A type that is a pointer hides
the binding, which then has no say. -/
theorem calls_follow_bindings (read : File.read table name src = .ok file) {at' : DeclInfo}
    {target : TypeExpr} {fs : List FuncDecl} (bound : .abstraction at' binding target fs ∈ file.decls)
    (named : binding ≠ "") {d : VarDecl} {te : TypeExpr} (node : .var d ∈ file.nodes)
    (copied : d.storage.kind = .value) (written : d.type = some te) {span mspan use : Span} {x : String}
    {accessor : Accessor} {args : List Expr}
    (call : .expr (.call span (.member mspan (.ident use x) member accessor) args) ∈ file.nodes) :
    ((Decl.bindingsOf file.decls).count binding = 1 → boundTo binding file.bound = fs) ∧
    (∀ s₁ s₂ s p t, Prepared table file file.decls s₁ s₂ → s₂.Run (resolving table file).may s →
      s.info.typeNames.contains use = false →
      (¬ t.Leads → (file.bindingVerdict s₂.info binding t.text member false).Decides s p span
        (.member mspan (.ident use x) member accessor) (.ident use x) member accessor (.via binding t)) ∧
      (t.Leads → (file.verdict s₂.info t member false).Decides s p span
        (.member mspan (.ident use x) member accessor) (.ident use x) member accessor (.via binding t))) ∧
    ∀ info t, file.resolve table = .ok info → info.typeOfExpr te = .via binding t →
      info.uses[use]? = info.vars[d.info.span]? →
      (¬ t.Leads → (file.bindingVerdict info binding t.text member false).Noted info span t.pointerDepth) ∧
      (t.Leads → (file.verdict info t member false).Noted info span t.pointerDepth) := by
  have follows := File.follows read named (Decl.mem_bindingsOf bound)
  refine ⟨boundTo_of_alone bound, fun s₁ s₂ s p t prepared run value => ⟨fun plain => ?_, fun leads => ?_⟩,
    fun info t resolved through refers => ?_⟩
  · exact follows.decides (x := .ident use x) prepared run value (Ty.pointee_via plain)
  · rw [← File.verdict_congr (Ty.pointee_via_of_leads leads)]
    exact prepared.decides read run p span (.member mspan (.ident use x) member accessor) (.ident use x) member
      accessor (.via binding t) value
  · obtain ⟨s₁, s₂, s, passed, rfl⟩ := File.read_passed read resolved
    have node' : .expr (.ident use x) ∈ file.nodes := by
      refine File.read_below read call ?_
      simp [Node.nodes, Expr.nodes]
    obtain ⟨typed, value⟩ := passed.ident_type read node written node' refers
    have own : d.storage.typeOf (s.info.typeOfExpr te) = .via binding t := by
      rw [through]
      unfold Storage.typeOf
      rw [copied]
    rw [own] at typed
    refine ⟨fun plain => ?_, fun leads => ?_⟩
    · have noted := follows.notes resolved call value typed rfl (Ty.pointee_via plain)
      exact noted
    · rw [← File.verdict_congr (Ty.pointee_via_of_leads leads)]
      exact passed.call_noted read call value typed rfl

/-- The variable that a node declares by value with a written type. -/
def Node.copied? : Node → Option (VarDecl × TypeExpr)
  | .var d =>
    match d.storage.kind, d.type with
    | .value, some te => some (d, te)
    | _, _ => none
  | _ => none

theorem Node.copied?_some {n : Node} {d : VarDecl} {te : TypeExpr} (found : n.copied? = some (d, te)) :
    n = .var d ∧ d.storage.kind = .value ∧ d.type = some te := by
  unfold Node.copied? at found
  split at found
  · split at found
    · next kind type =>
      cases found
      exact ⟨rfl, kind, type⟩
    · cases found
  · cases found

/-- The call of a member of the variable `x`, and where it mentions the variable. -/
def Node.called? (member : String) : Node → Option (Expr × Span × Span)
  | .expr (.call span (.member mspan (.ident use "x") name .dot) []) =>
    if name = member then some (.call span (.member mspan (.ident use "x") member .dot) [], span, use) else none
  | _ => none

theorem Node.called?_some {n : Node} {e : Expr} {span use : Span} (found : n.called? member = some (e, span, use)) :
    n = .expr e ∧ ∃ mspan, e = .call span (.member mspan (.ident use "x") member .dot) [] := by
  unfold Node.called? at found
  split at found
  · split at found
    · next same =>
      cases found
      exact ⟨by rw [same], _, rfl⟩
    · cases found
  · cases found

/-- A binding with its functions. -/
def Decl.binding? (name : String) : Decl → Option (Decl × List FuncDecl)
  | .abstraction info other target fs =>
    if other = name then some (.abstraction info name target fs, fs) else none
  | _ => none

theorem Decl.binding?_some {d e : Decl} {fs : List FuncDecl} (found : d.binding? binding = some (e, fs)) :
    d = e ∧ ∃ info target, e = .abstraction info binding target fs := by
  unfold Decl.binding? at found
  split at found
  · split at found
    · next same =>
      cases found
      exact ⟨by rw [same], _, _, rfl⟩
    · cases found
  · cases found

/-- Whether a text with the binding `A` is resolved, with a variable `x` whose type is named through the
binding and a call of a member on it. -/
def callsThrough (src member : String)
    (test : (file : File) → Info → (fs : List FuncDecl) → Ty → (call : Span) → Bool) : Bool :=
  (resolved? Table.default "main.tasty" src).any fun (file, info) =>
    (file.decls.filterMap (Decl.binding? "A")).any fun (_, fs) =>
      (file.nodes.filterMap Node.copied?).any fun (d, te) =>
        (file.nodes.filterMap (Node.called? member)).any fun (_, span, use) =>
          match info.typeOfExpr te with
          | .via "A" t => info.uses[use]? == info.vars[d.info.span]? && test file info fs t span
          | _ => false

/-- A call on a variable whose type is named through a binding. -/
structure CallThrough (src member : String) (file : File) (info : Info) (d : VarDecl) (te : TypeExpr)
    (fs : List FuncDecl) (t : Ty) (span mspan use : Span) : Prop where
  read : File.read Table.default "main.tasty" src = .ok file
  resolved : file.resolve Table.default = .ok info
  listed : ∃ at' target, .abstraction at' "A" target fs ∈ file.decls
  node : .var d ∈ file.nodes
  copied : d.storage.kind = .value
  written : d.type = some te
  call : .expr (.call span (.member mspan (.ident use "x") member .dot) []) ∈ file.nodes
  through : info.typeOfExpr te = .via "A" t
  refers : info.uses[use]? = info.vars[d.info.span]?

theorem callsThrough_found (src member : String)
    (test : (file : File) → Info → (fs : List FuncDecl) → Ty → (call : Span) → Bool)
    (found : callsThrough src member test = true) : ∃ file info d te fs t span mspan use,
      CallThrough src member file info d te fs t span mspan use ∧ test file info fs t span = true := by
  obtain ⟨⟨file, info⟩, steps, here⟩ := (Option.any_eq_true _ _).mp found
  obtain ⟨read, resolved⟩ := resolved?_some steps
  obtain ⟨⟨e, fs⟩, decl, here⟩ := List.any_eq_true.mp here
  obtain ⟨⟨d, te⟩, copied, here⟩ := List.any_eq_true.mp here
  obtain ⟨⟨call, span, use⟩, called, here⟩ := List.any_eq_true.mp here
  obtain ⟨d', listed, decl⟩ := List.mem_filterMap.mp decl
  obtain ⟨rfl, at', target, rfl⟩ := Decl.binding?_some decl
  obtain ⟨n, node, copied⟩ := List.mem_filterMap.mp copied
  obtain ⟨rfl, kind, type⟩ := Node.copied?_some copied
  obtain ⟨n', node', called⟩ := List.mem_filterMap.mp called
  obtain ⟨rfl, mspan, rfl⟩ := Node.called?_some called
  dsimp only at here
  split at here
  · next t through =>
    obtain ⟨refers, passes⟩ := Bool.and_eq_true_iff.mp here
    exact ⟨file, info, d, te, fs, t, span, mspan, use, ⟨read, resolved, ⟨at', target, listed⟩, node, kind,
      type, node', through, eq_of_beq refers⟩, passes⟩
  · cases here

/-- A text with a binding to a type. -/
def bindingText (target member : String) : String := "abstract A becomes " ++ target ++ " \x7b
    fn k();
    fn l() \x7b \x7d
\x7d
fn f() \x7b
    copy x: A;
    x." ++ member ++ "();
\x7d
"

/-- Whether a type is a primitive that no binding names. -/
def Ty.isPlainPrimitive : Ty → Bool
  | .prim _ => true
  | _ => false

theorem calls_follow_bindings_of_int : ∃ file info d te fs t span mspan use,
    CallThrough (bindingText "int" "l") "l" file info d te fs t span mspan use ∧ "A" ≠ "" ∧ ¬ t.Leads ∧
      boundTo "A" file.bound = fs ∧ ∃ e, e.cname = "A_l" ∧ info.extensionCalls[span]? = some ⟨e, 0⟩ := by
  obtain ⟨file, info, d, te, fs, t, span, mspan, use, calls, here⟩ :=
    callsThrough_found (bindingText "int" "l") "l" (fun file _ fs t _ =>
      t.isPlainPrimitive && (Decl.bindingsOf file.decls).count "A" == 1 &&
      (addedFunc? fs "l").any fun f => f.name == "l") (by
        unfold callsThrough resolved? bindingText
        rw [append_ofList (append_ofList (append_ofList (append_ofList rfl rfl) rfl) rfl) rfl,
          File.read_ofList]
        decide +kernel)
  obtain ⟨here, added⟩ := Bool.and_eq_true_iff.mp here
  obtain ⟨shape, once⟩ := Bool.and_eq_true_iff.mp here
  obtain ⟨at', target, listed⟩ := calls.listed
  obtain ⟨alone, -, noted⟩ := calls_follow_bindings calls.read listed (by decide) calls.node calls.copied
    calls.written calls.call
  have own := alone (eq_of_beq once)
  unfold Ty.isPlainPrimitive at shape
  split at shape
  · obtain ⟨f, adds, name⟩ := (Option.any_eq_true _ _).mp added
    have entry := (noted info _ calls.resolved calls.through calls.refers).1 id
    rw [File.bindingVerdict, own, adds] at entry
    obtain ⟨e, made, entry⟩ := entry
    refine ⟨file, info, d, te, fs, _, span, mspan, use, calls, by decide, id, own, e, ?_, entry⟩
    rw [made.cname, eq_of_beq name]
    decide
  · cases shape

/-- Whether a type is a pointer to a primitive. -/
def Ty.isPrimitivePointer : Ty → Bool
  | .pointer (.prim _) 1 => true
  | _ => false

/-- A binding to a pointer has no say: the call of a member that it does not list is accepted. -/
theorem pointer_hides_binding : ∃ file info d te fs t span mspan use,
    CallThrough (bindingText "int*" "m") "m" file info d te fs t span mspan use ∧
      (∃ p, t = .pointer (.prim p) 1) ∧ (Decl.bindingsOf file.decls).count "A" = 1 ∧
      fs.map (·.name) = ["k", "l"] ∧ file.refurbs.length = 0 ∧ info.extensionCalls[span]? = none := by
  obtain ⟨file, info, d, te, fs, t, span, mspan, use, calls, here⟩ :=
    callsThrough_found (bindingText "int*" "m") "m" (fun file info fs t span =>
      t.isPrimitivePointer && (Decl.bindingsOf file.decls).count "A" == 1 && fs.map (·.name) == ["k", "l"] &&
      file.refurbs.length == 0 && info.extensionCalls[span]?.isNone) (by
        unfold callsThrough resolved? bindingText
        rw [append_ofList (append_ofList (append_ofList (append_ofList rfl rfl) rfl) rfl) rfl,
          File.read_ofList]
        decide +kernel)
  simp only [Bool.and_eq_true, beq_iff_eq, Option.isNone_iff_eq_none] at here
  obtain ⟨⟨⟨⟨shape, alone⟩, names⟩, none⟩, plain⟩ := here
  unfold Ty.isPrimitivePointer at shape
  split at shape
  · exact ⟨file, info, d, te, fs, _, span, mspan, use, calls, ⟨_, rfl⟩, alone, names, none, plain⟩
  · cases shape

/-! ## Bindings of one name

Scopes keep bindings of one simple name apart, the tables of their functions do not: a call through one of
them is decided by the functions of all. So a further binding in another scope changes what becomes of a
call unless it has nothing to say about the member (`further_binding_apart_iff`).
-/

/-! ### Functions that move -/

section Functions

variable {fs gs : List FuncDecl} {f : FuncDecl} {move : FuncDecl → FuncDecl}

/-- A function that has the name of another one, and a body if that has one. -/
def FuncDecl.Alike (f g : FuncDecl) : Prop := g.name = f.name ∧ g.body.isNone = f.body.isNone

theorem addedFunc?_append (fs gs : List FuncDecl) (name : String) :
    addedFunc? (fs ++ gs) name = (addedFunc? gs name).or (addedFunc? fs name) := by
  rw [addedFunc?, List.filter_append, List.reverse_append, List.find?_append]
  rfl

theorem addedFunc?_mem {name : String} (found : addedFunc? fs name = some f) : f ∈ fs :=
  List.mem_of_mem_filter (List.mem_reverse.mp (List.mem_of_find?_eq_some found))

theorem addedFunc?_map (alike : ∀ f ∈ fs, f.Alike (move f)) (name : String) :
    addedFunc? (fs.map move) name = (addedFunc? fs name).map move := by
  have bodies : fs.filter ((fun f => !f.body.isNone) ∘ move) = fs.filter fun f => !f.body.isNone :=
    List.filter_congr fun f listed => congrArg not (alike f listed).2
  rw [addedFunc?, List.filter_map, bodies, ← List.map_reverse, List.find?_map, addedFunc?]
  refine congrArg (Option.map move) (List.find?_congr fun f listed => ?_)
  rw [Function.comp, (alike f (List.mem_of_mem_filter (List.mem_reverse.mp listed))).1]

theorem forwardsName_append (fs gs : List FuncDecl) (name : String) :
    forwardsName (fs ++ gs) name = (forwardsName fs name || forwardsName gs name) :=
  List.any_append

theorem forwardsName_map (alike : ∀ f ∈ fs, f.Alike (move f)) (name : String) :
    forwardsName (fs.map move) name = forwardsName fs name := by
  rw [forwardsName, forwardsName, List.any_map, Bool.eq_iff_iff, List.any_eq_true, List.any_eq_true]
  refine exists_congr fun f => and_congr_right fun listed => ?_
  obtain ⟨same, bare⟩ := alike f listed
  rw [Function.comp, same, bare]

end Functions

/-! ### Functions of one file -/

mutual

theorem Decl.grants_subperm : (d : Decl) →
    List.Subperm (d.bound.map Prod.snd ++ d.refurbs.map Prod.snd) d.funcs
  | .scope _ _ ds => Decl.grantsOf_subperm ds
  | .abstraction _ _ _ fs => by
    rw [Decl.bound, Decl.refurbs, Decl.funcs, List.map_map, List.map_nil, List.append_nil]
    exact (List.map_id fs).symm ▸ List.Subperm.refl _
  | .refurbish _ _ fs => by
    rw [Decl.bound, Decl.refurbs, Decl.funcs, List.map_map, List.map_nil, List.nil_append]
    exact (List.map_id fs).symm ▸ List.Subperm.refl _
  | .item _ | .includes _ _ _ _ | .assume _ _ _ | .cls _ _ _ _ | .attributeDef _ _ _ _ =>
    List.nil_subperm

theorem Decl.grantsOf_subperm : (ds : List Decl) →
    List.Subperm ((Decl.boundOf ds).map Prod.snd ++ (Decl.refurbsOf ds).map Prod.snd) (Decl.funcsOf ds)
  | [] => List.nil_subperm
  | d :: ds => by
    have both := (Decl.grants_subperm d).append (Decl.grantsOf_subperm ds)
    rw [Decl.boundOf, Decl.refurbsOf, Decl.funcsOf, List.map_append, List.map_append]
    refine (List.Perm.subperm ?_).trans both
    rw [List.append_assoc, List.append_assoc]
    exact (List.perm_append_comm_assoc _ _ _).append_left _

end

theorem File.grants_nodup (read : File.read table name src = .ok file) :
    (file.bound.map Prod.snd ++ file.refurbs.map Prod.snd).Nodup := by
  obtain ⟨p, q, lies⟩ := File.read_lies read
  obtain ⟨fs, perm, sub⟩ := Decl.grantsOf_subperm file.decls
  exact perm.nodup_iff.mp (sub.nodup lies.funcs.spread.nodup)

theorem boundTo_sublist (binding : String) (bs : List (String × FuncDecl)) :
    (boundTo binding bs).Sublist (bs.map Prod.snd) :=
  List.filter_sublist.map _

/-! ### A further binding -/

/-- A verdict on functions that have moved. -/
def Verdict.moved (move : FuncDecl → FuncDecl) : Verdict → Verdict
  | .extension owner f => .extension owner (move f)
  | .member => .member
  | .refused => .refused

/-- The bindings of a name in a file, and those in a wider one, which adds functions to them. The functions
of the first file may have moved. -/
structure File.Widens (file wider : File) (binding : String) (before added after : List FuncDecl)
    (move : FuncDecl → FuncDecl) (place : TypeExpr → TypeExpr) : Prop where
  listed : binding ∈ Decl.bindingsOf file.decls
  listed' : binding ∈ Decl.bindingsOf wider.decls
  own : boundTo binding file.bound = before ++ after
  bound : boundTo binding wider.bound = before.map move ++ added ++ after.map move
  refurbs : wider.refurbs = file.refurbs.map fun r => (place r.1, move r.2)
  alike : ∀ f ∈ before ++ after ++ file.refurbs.map Prod.snd, f.Alike (move f)
  text : ∀ r ∈ file.refurbs, (place r.1).text = r.1.text

/-- The types that functions are added to are the same. -/
def File.SameTargets (file : File) (info info' : Info) (place : TypeExpr → TypeExpr) : Prop :=
  ∀ r ∈ file.refurbs, (info'.typeOfExpr (place r.1)).text = (info.typeOfExpr r.1).text

section Widens

variable {before added after : List FuncDecl} {move : FuncDecl → FuncDecl} {place : TypeExpr → TypeExpr}
  {inside : Bool} {f g : FuncDecl}

theorem File.Widens.refurb? (widens : file.Widens wider binding before added after move place)
    (targets : file.SameTargets info info' place) :
    wider.refurb? info' type member =
      (file.refurb? info type member).map fun r => (place r.1, move r.2) := by
  rw [File.refurb?, widens.refurbs, ← List.map_reverse, List.find?_map, File.refurb?]
  refine congrArg (Option.map _) (List.find?_congr fun r listed => ?_)
  have listed := List.mem_reverse.mp listed
  have same := (widens.alike r.2 (List.mem_append_right _ (List.mem_map_of_mem listed))).1
  rw [Function.comp, targets r listed, same]

theorem File.Widens.apart (read : File.read table name src = .ok wider)
    (widens : file.Widens wider binding before added after move place) (further : g ∈ added) :
    (∀ f ∈ before ++ after, move f ≠ g) ∧ ∀ r ∈ file.refurbs, move r.2 ≠ g := by
  obtain ⟨once, -, apart⟩ := List.nodup_append.mp (File.grants_nodup read)
  have once := once.sublist (boundTo_sublist binding _)
  have inside : g ∈ boundTo binding wider.bound := by
    rw [widens.bound]
    exact List.mem_append_left _ (List.mem_append_right _ further)
  rw [widens.bound] at once
  obtain ⟨once, -, behind⟩ := List.nodup_append.mp once
  obtain ⟨-, -, front⟩ := List.nodup_append.mp once
  refine ⟨fun f own => ?_, fun r listed same => ?_⟩
  · rcases List.mem_append.mp own with own | own
    · exact front _ (List.mem_map_of_mem own) _ further
    · exact (behind _ (List.mem_append_right _ further) _ (List.mem_map_of_mem own)).symm
  · refine apart _ ((boundTo_sublist binding _).subset inside) (move r.2) ?_ same.symm
    rw [widens.refurbs, List.map_map]
    exact List.mem_map.mpr ⟨r, listed, rfl⟩

theorem File.mem_refurbs {r : TypeExpr × FuncDecl} (found : file.refurb? info type member = some r) :
    r ∈ file.refurbs :=
  List.mem_reverse.mp (List.mem_of_find?_eq_some found)

/-- What becomes of a call stays as it is exactly if the further functions do not add the member, unless
one of the own functions behind them does, and do not forward it where nothing else allows it. -/
theorem File.Widens.verdict_iff (read : File.read table name src = .ok wider)
    (widens : file.Widens wider binding before added after move place)
    (targets : file.SameTargets info info' place) :
    wider.bindingVerdict info' binding type member inside =
        (file.bindingVerdict info binding type member inside).moved move ↔
      (addedFunc? after member = none → addedFunc? added member = none) ∧
        (addedFunc? (before ++ after) member = none → file.refurb? info type member = none →
          forwardsName (before ++ after) member = false → inside = false →
            forwardsName added member = false) := by
  have apart := fun g => widens.apart (g := g) read
  have front : ∀ f ∈ before, f.Alike (move f) := fun f h => widens.alike f (by simp [h])
  have behind : ∀ f ∈ after, f.Alike (move f) := fun f h => widens.alike f (by simp [h])
  unfold File.bindingVerdict
  rw [widens.own, widens.bound, widens.refurb? targets, addedFunc?_append, addedFunc?_append,
    addedFunc?_append, addedFunc?_map front, addedFunc?_map behind, forwardsName_append,
    forwardsName_append, forwardsName_append, forwardsName_map front, forwardsName_map behind]
  have target : ∀ r, file.refurb? info type member = some r → r ∈ file.refurbs :=
    fun _ => File.mem_refurbs
  cases last : addedFunc? after member with
  | some f => simp [Verdict.moved]
  | none =>
    cases more : addedFunc? added member with
    | some g =>
      -- the function that is added behind the own ones is none of these
      obtain ⟨own, refurbs⟩ := apart g (addedFunc?_mem more)
      refine iff_of_false (fun same => ?_) fun quiet => Option.some_ne_none g (quiet.1 rfl)
      cases first : addedFunc? before member with
      | some f =>
        rw [first] at same
        exact own f (List.mem_append_left _ (addedFunc?_mem first)) (Verdict.extension.inj same).2.symm
      | none =>
        rw [first] at same
        cases there : file.refurb? info type member with
        | some r =>
          rw [there] at same
          exact refurbs r (target r there) (Verdict.extension.inj same).2.symm
        | none =>
          rw [there] at same
          revert same
          cases forwardsName before member || forwardsName after member || inside <;> exact nofun
    | none =>
      cases first : addedFunc? before member with
      | some f => simp [Verdict.moved]
      | none =>
        cases there : file.refurb? info type member with
        | some r => simp [Verdict.moved, widens.text r (target r there)]
        | none =>
          cases forwardsName before member <;> cases forwardsName added member <;>
            cases forwardsName after member <;> cases inside <;> simp [Verdict.moved]

/-- In both files calls through the bindings follow their functions, so what becomes of one is changed by
further functions exactly if they add the member, unless an own function behind them does, or forward it
where nothing else allows it. -/
theorem further_binding_apart_iff (read : File.read table name src = .ok file)
    (read' : File.read table name' src' = .ok wider) (named : binding ≠ "")
    (widens : file.Widens wider binding before added after move place) :
    file.Follows table binding ∧ wider.Follows table binding ∧
      ∀ info info' type member inside, file.SameTargets info info' place →
        (wider.bindingVerdict info' binding type member inside =
            (file.bindingVerdict info binding type member inside).moved move ↔
          (addedFunc? after member = none → addedFunc? added member = none) ∧
            (addedFunc? (before ++ after) member = none → file.refurb? info type member = none →
              forwardsName (before ++ after) member = false → inside = false →
                forwardsName added member = false)) :=
  ⟨File.follows read named widens.listed, File.follows read' named widens.listed',
    fun _ _ _ _ _ targets => widens.verdict_iff read' targets⟩

end Widens

/-- A text with a binding in a namespace, and a call of a member that it does not list. -/
def aloneText : String := "namespace N { abstract A becomes int { fn m(); } }
fn f() { copy x: N.A; x.k(); }
"

/-- The same with a namesake of the binding in another namespace. -/
def namesakeText : String := "namespace N { abstract A becomes int { fn m(); } }
fn f() { copy x: N.A; x.k(); }
namespace M { abstract A becomes int { fn k(); } }
"

/-- The functions bound to the one binding of a text that is refused for it, and those of a text with a
namesake of it. -/
def refusedAlone? : Except ResolveError Info → List FuncDecl → List FuncDecl →
    Option (FuncDecl × FuncDecl × FuncDecl)
  | .error (.notForwarded "A" "k" _), [f], [g, h] => some (f, g, h)
  | _, _, _ => none

theorem namesakes_found : ∃ file wider pos info f g h,
    File.read Table.default "main.tasty" aloneText = .ok file ∧
      File.read Table.default "main.tasty" namesakeText = .ok wider ∧
      file.resolve Table.default = .error (.notForwarded "A" "k" pos) ∧
      wider.resolve Table.default = .ok info ∧ boundTo "A" file.bound = [f] ∧
      boundTo "A" wider.bound = [g, h] ∧ file.refurbs = [] ∧ wider.refurbs = [] ∧
      "A" ∈ Decl.bindingsOf file.decls ∧ "A" ∈ Decl.bindingsOf wider.decls ∧
      f.Alike g ∧ f.name = "m" ∧ f.body.isNone ∧ h.name = "k" ∧ h.body.isNone := by
  have found : ((File.read Table.default "main.tasty" aloneText).toOption.any fun file =>
      (resolved? Table.default "main.tasty" namesakeText).any fun r =>
        (refusedAlone? (file.resolve Table.default) (boundTo "A" file.bound) (boundTo "A" r.1.bound)).any
          fun q => (file.refurbs.isEmpty && r.1.refurbs.isEmpty) && decide (
            "A" ∈ Decl.bindingsOf file.decls ∧ "A" ∈ Decl.bindingsOf r.1.decls ∧ q.2.1.name = q.1.name ∧
            q.2.1.body.isNone = q.1.body.isNone ∧ q.1.name = "m" ∧ q.1.body.isNone ∧ q.2.2.name = "k" ∧
            q.2.2.body.isNone)) = true := by
    rw [aloneText, namesakeText, resolved?, File.read_ofList, File.read_ofList]
    decide +kernel
  obtain ⟨file, read, here⟩ := (Option.any_eq_true _ _).mp found
  obtain ⟨⟨wider, info⟩, steps, here⟩ := (Option.any_eq_true _ _).mp here
  obtain ⟨read', resolved⟩ := resolved?_some steps
  obtain ⟨⟨f, g, h⟩, lone, here⟩ := (Option.any_eq_true _ _).mp here
  obtain ⟨plain, here⟩ := Bool.and_eq_true_iff.mp here
  obtain ⟨none, none'⟩ := Bool.and_eq_true_iff.mp plain
  obtain ⟨listed, listed', same, bodies, name, bare, name', bare'⟩ := of_decide_eq_true here
  unfold refusedAlone? at lone
  split at lone
  · next pos f' g' h' refused own bound =>
    cases lone
    exact ⟨file, wider, pos, info, f, g, h, toOption_eq_some read, read', refused, resolved, own, bound,
      List.isEmpty_iff.mp none, List.isEmpty_iff.mp none', listed, listed', ⟨same, bodies⟩, name, bare, name',
      bare'⟩
  · cases lone

theorem further_binding_apart_of_other_member : ∃ file wider before added after move place,
    File.read Table.default "main.tasty" aloneText = .ok file ∧
      File.read Table.default "main.tasty" namesakeText = .ok wider ∧ "A" ≠ "" ∧
      file.Widens wider "A" before added after move place ∧ added.map (·.name) = ["k"] ∧
      ∀ info info' type inside, wider.bindingVerdict info' "A" type "m" inside =
        (file.bindingVerdict info "A" type "m" inside).moved move := by
  obtain ⟨file, wider, -, -, f, g, h, read, read', -, -, own, bound, none, none', listed, listed', alike, name,
    bare, name', bare'⟩ := namesakes_found
  have widens : file.Widens wider "A" [f] [h] [] (fun _ => g) id := by
    refine ⟨listed, listed', own, bound, by rw [none, none']; rfl, fun f' member => ?_,
      fun r member => by rw [none] at member; cases member⟩
    rw [none, List.map_nil, List.append_nil, List.append_nil, List.mem_singleton] at member
    subst member
    exact alike
  obtain ⟨-, -, apart⟩ := further_binding_apart_iff read read' (by decide) widens
  refine ⟨file, wider, _, _, _, _, _, read, read', by decide, widens, by rw [List.map_singleton, name'],
    fun info info' type inside => ?_⟩
  have targets : file.SameTargets info info' id := fun r member => by rw [none] at member; cases member
  refine (apart info info' type "m" inside targets).mpr ⟨fun _ => ?_, fun _ _ forwards _ => ?_⟩
  · simp [addedFunc?, bare']
  · simp [forwardsName, name, bare] at forwards

/-- A call that is refused is accepted once another namespace has a binding of the same simple name. -/
theorem namesake_allows_call : ∃ file wider pos info,
    File.read Table.default "main.tasty" aloneText = .ok file ∧
      File.read Table.default "main.tasty" namesakeText = .ok wider ∧
      file.resolve Table.default = .error (.notForwarded "A" "k" pos) ∧
      wider.resolve Table.default = .ok info := by
  obtain ⟨file, wider, pos, info, -, -, -, read, read', refused, resolved, -⟩ := namesakes_found
  exact ⟨file, wider, pos, info, read, read', refused, resolved⟩

end TastyLang
