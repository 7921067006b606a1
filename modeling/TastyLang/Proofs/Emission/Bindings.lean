import TastyLang.Proofs.Compilation.Keeping
import TastyLang.Proofs.Evaluation
import TastyLang.Proofs.Resolution.Findings

/-!
# Variables that start with a new object

The definition of a variable that starts with a new object is written from the type of the object
(`bindingText`), every other mention of its type from what resolution settled. A written type settles
it by itself, so that the two need not agree (`binding_agrees_iff`).
-/

namespace TastyLang

open Resolution Emission

/-! ### Types of objects -/

/-- The type that a pointer to a `t` points to: pointers to pointers are one type. -/
def Ty.element (t : Ty) : Ty :=
  match t.core with
  | .pointer elem _ => elem
  | _ => t

theorem inferredType_new (s : Storage) (span : Span) (te : TypeExpr) (args : List Expr) (t : Ty) :
    inferredType s (some (.new span te args, t.pointerTo 1)) = s.typeOf t.element := by
  unfold Ty.pointerTo Ty.element
  rw [if_neg Nat.one_ne_zero]
  cases t.core <;> rfl

theorem Ty.element_eq {t : Ty} (plain : t.isPointer = false) : t.element = t := by
  revert plain
  unfold isPointer element
  cases t.core with
  | pointer elem n => exact fun plain => nomatch plain
  | _ => exact fun _ => rfl

/-! ### Texts of types -/

/-- The type of a variable that starts with a new object, by the text of the object's type. -/
def Storage.bindingText (s : Storage) (alloc : String) : String :=
  match s.kind with
  | .rawPointer level => (sharedBinding (alloc ++ "*") "" (level - 1)).1
  | .shared => "std::shared_ptr<" ++ alloc ++ ">"
  | .unique => "std::unique_ptr<" ++ alloc ++ ">"
  | .reference _ | .unresolved | .value | .moved => alloc

theorem sharedBinding_type (type v w : String) (n : Nat) :
    (sharedBinding type v n).1 = (sharedBinding type w n).1 := by
  induction n with
  | zero => rfl
  | succ n ih => exact congrArg (fun t => "std::shared_ptr<" ++ t ++ ">") ih

theorem cpp_shared (t : Ty) (v : String) (n : Nat) :
    (Ty.shared t n).cpp = (sharedBinding t.cpp v n).1 := by
  induction n with
  | zero => rfl
  | succ n ih => exact congrArg (fun type => "std::shared_ptr<" ++ type ++ ">") ih

theorem sharedBinding_inj (type type' v : String) (n : Nat) :
    (sharedBinding type v n).1 = (sharedBinding type' v n).1 ↔ type = type' := by
  induction n with
  | zero => exact Iff.rfl
  | succ n ih =>
    have step : ∀ front back s t : String, front ++ s ++ back = front ++ t ++ back ↔ s = t := by
      intro front back s t
      rw [String.append_left_inj, String.append_right_inj]
    exact (step _ _ _ _).trans ih

/-- Variables of a storage have the same type, one for an object of type `t` and one that starts with a
new object whose type has the text `alloc`. Pointers are not wrapped again in the first case. -/
def Storage.Fits (s : Storage) (t : Ty) (alloc : String) : Prop :=
  match s.kind with
  | .rawPointer _ => t.cpp = if t.isPointer then alloc ++ "*" else alloc
  | .shared => t.cpp = if t.isSmart then "std::shared_ptr<" ++ alloc ++ ">" else alloc
  | .unique => t.cpp = if t.isSmart then "std::unique_ptr<" ++ alloc ++ ">" else alloc
  | .reference _ | .unresolved | .value | .moved => t.cpp = alloc

theorem Storage.bindingText_eq_iff {s : Storage} (t : Ty) (alloc : String)
    (holds : ∀ isConst, s.kind ≠ .reference isConst) :
    s.bindingText alloc = (s.typeOf t).cpp ↔ s.Fits t alloc := by
  unfold bindingText typeOf Fits
  cases kind : s.kind with
  | reference isConst => exact absurd kind (holds isConst)
  | rawPointer level =>
    dsimp only
    rw [cpp_shared _ "", sharedBinding_inj]
    cases pointer : t.isPointer with
    | true => exact eq_comm
    | false =>
      have cpp : (Ty.pointer t 1).cpp = t.cpp ++ "*" := rfl
      rw [if_neg Bool.false_ne_true, if_neg Bool.false_ne_true, cpp, String.append_left_inj]
      exact eq_comm
  | shared =>
    dsimp only
    cases smart : t.isSmart with
    | true => exact eq_comm
    | false =>
      have cpp : (Ty.smart t false).cpp = "std::shared_ptr<" ++ t.cpp ++ ">" := rfl
      rw [if_neg Bool.false_ne_true, if_neg Bool.false_ne_true, cpp, String.append_left_inj,
        String.append_right_inj]
      exact eq_comm
  | unique =>
    dsimp only
    cases smart : t.isSmart with
    | true => exact eq_comm
    | false =>
      have cpp : (Ty.smart t true).cpp = "std::unique_ptr<" ++ t.cpp ++ ">" := rfl
      rw [if_neg Bool.false_ne_true, if_neg Bool.false_ne_true, cpp, String.append_left_inj,
        String.append_right_inj]
      exact eq_comm
  | unresolved | value | moved => exact eq_comm

theorem Storage.fits_own (s : Storage) {t : Ty} (pointer : t.isPointer = false)
    (smart : t.isSmart = false) : s.Fits t t.cpp := by
  unfold Fits
  rw [pointer, smart]
  cases s.kind <;> rfl

theorem anonymous_shared (t : Ty) (n : Nat) : (Ty.shared t n).anonymous = t.anonymous := by
  induction n with
  | zero => rfl
  | succ n ih => rw [Ty.shared, Ty.anonymous, ih]

theorem Storage.anonymous_typeOf (s : Storage) (t : Ty) : (s.typeOf t).anonymous = t.anonymous := by
  unfold typeOf
  cases s.kind with
  | rawPointer level =>
    dsimp only
    rw [anonymous_shared]
    split <;> rfl
  | shared | unique =>
    dsimp only
    split <;> rfl
  | reference _ | unresolved | value | moved => rfl

/-! ### Definitions and other mentions -/

section
variable {info : Info} {d : VarDecl} {span : Span} {te : TypeExpr} {args : List Expr}
  {x text : String} {ms : Modifiers}

theorem newBinding_text {pos : Pos} (h : newBinding info d pos te args x = .ok text) :
    (∀ isConst, d.storage.kind ≠ .reference isConst) ∧ ∃ rest,
      text = d.storage.bindingText (typeName (info.typeOfExpr te)) ++ " " ++ x ++ rest := by
  obtain ⟨xs, -, h⟩ := except_bind_ok h
  have gap : "> " = ">" ++ " " := rfl
  unfold Storage.bindingText
  cases kind : d.storage.kind with
  | value | moved =>
    rw [kind] at h
    cases h
    exact ⟨nofun, _, rfl⟩
  | rawPointer level =>
    rw [kind] at h
    cases h
    generalize "new " ++ typeName (info.typeOfExpr te) ++ "(" ++ Text.join ", " xs ++ ")" = v
    generalize typeName (info.typeOfExpr te) ++ "*" = type
    refine ⟨nofun, " = " ++ (sharedBinding type v (level - 1)).2, ?_⟩
    rw [sharedBinding_type type v ""]
    simp only [String.append_assoc]
  | shared =>
    rw [kind] at h
    cases h
    refine ⟨nofun, " = std::make_shared<" ++ typeName (info.typeOfExpr te) ++ ">(" ++
      Text.join ", " xs ++ ")", ?_⟩
    rw [gap]
    simp only [String.append_assoc]
  | unique =>
    rw [kind] at h
    cases h
    refine ⟨nofun, " = std::make_unique<" ++ typeName (info.typeOfExpr te) ++ ">(" ++
      Text.join ", " xs ++ ")", ?_⟩
    rw [gap]
    simp only [String.append_assoc]
  | reference _ | unresolved =>
    rw [kind] at h
    cases h

theorem variableText_new (made : d.value = some (.new span te args))
    (h : variableText info d x ms true = .ok text) :
    (∀ isConst, d.storage.kind ≠ .reference isConst) ∧ ∃ rest, text =
      ms.lead ++ d.storage.bindingText (typeName (info.typeOfExpr te)) ++ " " ++ x ++ rest := by
  unfold variableText at h
  rw [made] at h
  dsimp only at h
  split at h
  · cases h
  · obtain ⟨s, written, h⟩ := except_bind_ok h
    cases h
    obtain ⟨holds, rest, rfl⟩ := newBinding_text written
    refine ⟨holds, rest, ?_⟩
    simp only [String.append_assoc]

theorem variableText_plain (settled : d.storage.isUnresolved = false)
    (known : (info.varType d).anonymous = false) : variableText info d x ms false =
      .ok (ms.lead ++ (info.varType d).cpp ++ " " ++ x) := by
  have type : declType info d = (info.varType d).cpp := by
    unfold declType
    dsimp only
    rw [known]
    rfl
  unfold variableText
  dsimp only
  rw [settled, type]
  rfl

end

/-! ### What resolution settles -/

/-- The type of the object that a variable holds: the written one, or that of the object that it starts
with. -/
def Info.objectType (info : Info) (d : VarDecl) (te : TypeExpr) : Ty :=
  match d.type with
  | some written => info.typeOfExpr written
  | none => (info.typeOfExpr te).element

section
variable {table : Table} {name src : String} {file : File} {info : Info} {d : VarDecl} {span : Span}
  {te : TypeExpr} {args : List Expr}

theorem varType_new (read : File.read table name src = .ok file) (resolved : file.resolve table = .ok info)
    (node : .var d ∈ file.nodes) (made : d.value = some (.new span te args)) :
    info.varType d = d.storage.typeOf (info.objectType d te) := by
  obtain ⟨s₁, s₂, s, passed, rfl⟩ := File.read_passed read resolved
  obtain ⟨id, noted, carries⟩ := passed.carries read node
  have held : ∀ t, (s.info.symbols.symbol id).type = some t → s.info.varType d = t := by
    intro t type
    rw [Info.varType, noted, Info.symbolType, Option.bind_some, type]
    rfl
  have known : ∀ {u : TypeExpr} {t : Ty}, s.info.typeExprs[u.span]? = some t → s.info.typeOfExpr u = t := by
    intro u t found
    rw [Info.typeOfExpr, Std.TreeMap.getD_eq_getD_getElem?, found]
    rfl
  unfold Info.objectType
  cases written : d.type with
  | some w =>
    obtain ⟨t, found, type⟩ := carries.written w written
    dsimp only
    rw [held _ type, known found]
  | none =>
    have below : .expr (.new span te args) ∈ (Node.var d).nodes := by
      rw [Node.nodes, VarDecl.nodes, made]
      refine List.mem_cons_of_mem _ (List.mem_append_right _ ?_)
      rw [nodesIn, Expr.nodes.eq_def]
      exact List.mem_cons_self
    obtain ⟨t, found, typed⟩ := passed.visited_expr (File.read_below read node below)
    have value : s.info.typeOf (.new span te args) = t.pointerTo 1 := by
      have own : s.info.types[(Expr.new span te args).span]? = some (t.pointerTo 1) := typed
      rw [Info.typeOf, Std.TreeMap.getD_eq_getD_getElem?, own]
      rfl
    have type := carries.inferred written
    rw [made, Option.map_some, value, inferredType_new] at type
    dsimp only
    rw [held _ type, known found]

end

/-! ### Analyses -/

section
variable {table : Table} {name src : String} {a : Analysis} {d : VarDecl} {span : Span} {te : TypeExpr}
  {args : List Expr} {x text : String} {ms : Modifiers}

/-- The definition of a variable that starts with a new object is written with the type of its storage
for that object, other declarations with the type that resolution settled; they agree if and only if the
object fits the type that is written for the variable, and without a written type if it is no pointer. -/
theorem Analysis.binding_agrees_iff (analyzed : analyze table name src = .ok a)
    (node : .var d ∈ a.file.nodes) (made : d.value = some (.new span te args))
    (known : (a.info.varType d).anonymous = false) (defined : variableText a.info d x ms true = .ok text) :
    (∃ rest, text = ms.lead ++ d.storage.bindingText (typeName (a.info.typeOfExpr te)) ++ " " ++ x ++ rest) ∧
    (∀ ms', variableText a.info d x ms' false = .ok (ms'.lead ++ (a.info.varType d).cpp ++ " " ++ x)) ∧
    a.info.varType d = d.storage.typeOf (a.info.objectType d te) ∧
    (d.storage.bindingText (typeName (a.info.typeOfExpr te)) = (a.info.varType d).cpp ↔
      d.storage.Fits (a.info.objectType d te) (typeName (a.info.typeOfExpr te))) ∧
    (d.type = none → (a.info.typeOfExpr te).isPointer = false → (a.info.typeOfExpr te).isSmart = false →
      d.storage.bindingText (typeName (a.info.typeOfExpr te)) = (a.info.varType d).cpp) := by
  obtain ⟨file, read, resolved, kept⟩ := analyze_keeps analyzed
  have settles : a.info.varType d = d.storage.typeOf (a.info.objectType d te) := by
    obtain ⟨n, inside, alike⟩ := kept _ node rfl
    cases alike with
    | refl => exact varType_new read resolved inside made
    | var e own place =>
      have type := varType_new read resolved inside made
      change a.info.symbolType a.info.vars[own.span]? = _
      rw [place]
      exact type
  obtain ⟨holds, shown⟩ := variableText_new made defined
  have settled : d.storage.isUnresolved = false := by
    unfold variableText at defined
    dsimp only at defined
    split at defined
    · cases defined
    · next settled => exact eq_false_of_ne_true settled
  have agrees := Storage.bindingText_eq_iff (a.info.objectType d te) (typeName (a.info.typeOfExpr te)) holds
  rw [← settles] at agrees
  refine ⟨shown, fun ms' => variableText_plain settled known, settles, agrees, fun none pointer smart => ?_⟩
  have object : a.info.objectType d te = a.info.typeOfExpr te := by
    unfold Info.objectType
    rw [none]
    exact Ty.element_eq pointer
  rw [settles, object, Storage.anonymous_typeOf] at known
  rw [agrees, object, typeName, known]
  exact Storage.fits_own d.storage pointer smart

end

/-- A variable for objects of a class that starts with an object of another class. -/
def boundText : String := "class B {}
class D extends B {}
ptr g: B = new D();
"

/-- A variable that starts with a new object. -/
def Node.new? : Node → Option (VarDecl × Span × TypeExpr × List Expr)
  | .var d =>
    match d.value with
    | some (.new span te args) => some (d, span, te, args)
    | _ => none
  | _ => none

theorem Node.new?_some {n : Node} {d : VarDecl} {span : Span} {te : TypeExpr} {args : List Expr}
    (h : n.new? = some (d, span, te, args)) : n = .var d ∧ d.value = some (.new span te args) := by
  unfold new? at h
  split at h
  · split at h
    · next value =>
      cases h
      exact ⟨rfl, value⟩
    · cases h
  · cases h

theorem boundText_analyzed :
    (analyze Table.default "main.tasty" boundText).toOption.any (fun a =>
      a.file.nodes.any fun n => n.new?.any fun (d, _) =>
        (a.info.varType d).cpp == "B*" && !(a.info.varType d).anonymous &&
          (variableText a.info d d.name d.info.modifiers true).toOption == some "D* g = new D()" &&
          (variableText a.info d d.name (d.info.modifiers.insert .external) false).toOption ==
            some "extern B* g") = true := by
  rw [analyze, boundText, File.read_ofList]
  decide +kernel

theorem Analysis.binding_agrees_iff_of_derived :
    ∃ a d span te args, analyze Table.default "main.tasty" boundText = .ok a ∧
      .var d ∈ a.file.nodes ∧ d.value = some (.new span te args) ∧
      (a.info.varType d).anonymous = false ∧
      variableText a.info d d.name d.info.modifiers true = .ok "D* g = new D()" ∧
      a.info.varType d = d.storage.typeOf (a.info.objectType d te) ∧
      (d.storage.bindingText (typeName (a.info.typeOfExpr te)) = (a.info.varType d).cpp ↔
        d.storage.Fits (a.info.objectType d te) (typeName (a.info.typeOfExpr te))) := by
  obtain ⟨a, analyzed, here⟩ := (Option.any_eq_true _ _).mp boundText_analyzed
  simp only [Bool.and_eq_true, List.any_eq_true, Option.any_eq_true, beq_iff_eq,
    Bool.not_eq_true'] at here
  obtain ⟨n, node, ⟨d, span, te, args⟩, new, ⟨⟨-, known⟩, text⟩, -⟩ := here
  obtain ⟨rfl, made⟩ := Node.new?_some new
  have analyzed := toOption_eq_some analyzed
  have defined := toOption_eq_some text
  obtain ⟨-, -, settles, agrees, -⟩ := binding_agrees_iff analyzed node made known defined
  exact ⟨a, d, span, te, args, analyzed, node, made, known, defined, settles, agrees⟩

/-- The variable is declared with another type than it is defined with. -/
theorem derived_binding_differs :
    ∃ a d span te args, analyze Table.default "main.tasty" boundText = .ok a ∧
      .var d ∈ a.file.nodes ∧ d.value = some (.new span te args) ∧
      (a.info.varType d).anonymous = false ∧ (a.info.varType d).cpp = "B*" ∧
      variableText a.info d d.name d.info.modifiers true = .ok "D* g = new D()" ∧
      variableText a.info d d.name (d.info.modifiers.insert .external) false = .ok "extern B* g" := by
  obtain ⟨a, analyzed, here⟩ := (Option.any_eq_true _ _).mp boundText_analyzed
  simp only [Bool.and_eq_true, List.any_eq_true, Option.any_eq_true, beq_iff_eq,
    Bool.not_eq_true'] at here
  obtain ⟨n, node, ⟨d, span, te, args⟩, new, ⟨⟨type, known⟩, text⟩, other⟩ := here
  obtain ⟨rfl, made⟩ := Node.new?_some new
  exact ⟨a, d, span, te, args, toOption_eq_some analyzed, node, made, known, type, toOption_eq_some text,
    toOption_eq_some other⟩

end TastyLang
