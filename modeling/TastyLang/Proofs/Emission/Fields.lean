import TastyLang.Proofs.Emission.Functions
import TastyLang.Proofs.Evaluation

/-!
# Where fields are declared and defined

A class declares its fields with all of their modifiers. A static field that is no constant expression
is defined outside of its class, where none of its modifiers are written
(`compile_defines_fields`).
-/

namespace TastyLang

namespace Modifiers

/-- What a definition outside of a class has to repeat of a declaration. -/
def repeated (ms : Modifiers) : Modifiers := ms.only ⟨[.const, .volatile, .threadLocal]⟩

theorem has_repeated {ms : Modifiers} {m : Modifier} : ms.repeated.has m = true ↔
    ms.has m = true ∧ m ∈ [Modifier.const, .volatile, .threadLocal] := by
  simp [has, repeated, only, List.mem_filter]

theorem lead_eq_empty {ms : Modifiers} : ms.lead = "" ↔ ∀ m ∈ writtenOrder, ms.has m = false := by
  constructor
  · intro none m member
    by_contra there
    have word := word_in_lead member ((Bool.not_eq_false _).mp there)
    rw [none] at word
    have short := word.length_le
    simp at short
  · intro none
    rw [lead, List.filter_eq_nil_iff.mpr fun m member => by simp [none m member]]
    rfl

theorem lead_repeated {ms : Modifiers} : ms.repeated.lead = "" ↔
    ms.has .const = false ∧ ms.has .volatile = false ∧ ms.has .threadLocal = false := by
  have listed : ∀ m ∈ [Modifier.const, .volatile, .threadLocal], m ∈ writtenOrder := by decide
  have part : ms.repeated.lead = "" ↔
      ∀ m ∈ [Modifier.const, .volatile, .threadLocal], ms.has m = false := by
    rw [lead_eq_empty]
    refine ⟨fun none m member => ?_, fun none m _ => ?_⟩
    · by_contra there
      have kept := has_repeated.mpr ⟨(Bool.not_eq_false _).mp there, member⟩
      rw [none m (listed m member)] at kept
      cases kept
    · by_contra there
      obtain ⟨has, member⟩ := has_repeated.mp ((Bool.not_eq_false _).mp there)
      rw [none m member] at has
      cases has
  simpa using part

end Modifiers

namespace Emission

variable {info : Info} {c : Include.Context}

theorem variableText_lead (d : VarDecl) (name : String) (ms : Modifiers) (withValue : Bool) :
    variableText info d name ms withValue =
      (ms.lead ++ ·) <$> variableText info d name {} withValue := by
  have none : ({} : Modifiers).lead = "" := rfl
  unfold variableText
  rw [none]
  cases d.storage.isUnresolved with
  | true => rfl
  | false =>
    dsimp only
    rw [if_neg Bool.false_ne_true, if_neg Bool.false_ne_true]
    split
    · simp
    · simp [String.append_assoc]
    · simp [String.append_assoc]
/-- A field of a class, and whether the header shows the class. -/
structure Field where
  owner : String
  shown : Bool
  var : VarDecl

namespace Field

def declaration (info : Info) (e : Field) : Except EmitError String :=
  variableText info e.var e.var.name e.var.info.modifiers !(isStaticField e.var)

def fullName (e : Field) : String := e.owner ++ "::" ++ e.var.name

/-- Some parts have the declaration of a field, and its definition outside of the class. -/
structure IsIn (info : Info) (e : Field) (ps : List Part) : Prop where
  declaration : ∃ p ∈ ps, p.sheet = sheetOf e.shown ∧ Leaves p.text (Declares (e.declaration info))
  definition : ∃ p ∈ ps, p.sheet = .source ∧ p.text = memberDefinition info e.owner (.var e.var)

theorem IsIn.mono {e : Field} {ps qs : List Part} (h : e.IsIn info ps) (more : ps ⊆ qs) :
    e.IsIn info qs where
  declaration := by
    obtain ⟨p, member, found⟩ := h.declaration
    exact ⟨p, more member, found⟩
  definition := by
    obtain ⟨p, member, found⟩ := h.definition
    exact ⟨p, more member, found⟩

end Field

end Emission

open Emission

/-- The field that a member of a class is. -/
def Item.fields (owner : String) (visible : Bool) : Item → List Field
  | .var d => [⟨owner, visible, d⟩]
  | .func _ | .enum _ | .inject _ _ => []

mutual

/-- The fields of the classes of a declaration, in namespaces of any depth. -/
def Decl.fields (visible : Bool) (d : Decl) : List Field :=
  match d with
  | .scope di _ ds => Decl.fieldsOf (visible && !di.generated.noHeader) ds
  | .cls di name _ items => items.flatMap (Item.fields name (visible && !di.generated.noHeader))
  | .item _ | .abstraction _ _ _ _ | .refurbish _ _ _ | .includes _ _ _ _ | .assume _ _ _
  | .attributeDef _ _ _ _ => []
termination_by structural d

def Decl.fieldsOf (visible : Bool) : List Decl → List Field
  | [] => []
  | d :: ds => Decl.fields visible d ++ Decl.fieldsOf visible ds
termination_by structural ds => ds

end

def Analysis.fields (a : Analysis) : List Field := Decl.fieldsOf true a.file.decls

namespace Emission

variable {info : Info} {c : Include.Context}

theorem field_isIn {d : DeclInfo} {name : String} {bases : List TypeExpr} {items : List Item}
    {shown : Bool} {v : VarDecl} (member : .var v ∈ items) :
    Field.IsIn info ⟨name, shown, v⟩ (classParts c info d name bases items shown) where
  declaration := by
    refine ⟨_, List.mem_cons_self, rfl, ?_⟩
    have here : Leaves (classMember info name (.var v))
        (Declares (Field.declaration info ⟨name, shown, v⟩)) := declared_leaves
    refine .bind fun _ => .bind fun _ => .bind fun _ => .bind fun _ => .bind fun _ => .bind fun _ =>
      .bind fun _ => .bind fun _ => .bind fun _ => Leaves.before
        (.forM member here declares_lasting classMember_grows) declares_lasting fun _ => ?_
    exact dedent_grows.bind fun _ => align_grows.bind fun _ => write_grows
  definition := ⟨_, List.mem_cons_of_mem _ (List.mem_map_of_mem member), rfl, rfl⟩

mutual

theorem decl_hasFields : ∀ (visible : Bool) (d : Decl) {e : Field}, e ∈ d.fields visible →
    e.IsIn info (parts c info visible d)
  | visible, .scope di name ds, e, member => by
    rw [Decl.fields] at member
    rw [parts]
    refine (decls_haveFields _ ds member).mono fun p inside => ?_
    exact List.mem_append_left _ (List.mem_append_right _ inside)
  | visible, .cls di name bases items, e, member => by
    rw [Decl.fields] at member
    rw [parts]
    obtain ⟨i, inside, member⟩ := List.mem_flatMap.mp member
    cases i with
    | var v =>
      obtain rfl := List.mem_singleton.mp member
      exact field_isIn inside
    | func | enum | inject => cases member
  | visible, .item _, e, member | visible, .abstraction _ _ _ _, e, member
  | visible, .refurbish _ _ _, e, member | visible, .includes _ _ _ _, e, member
  | visible, .assume _ _ _, e, member | visible, .attributeDef _ _ _ _, e, member => by
    rw [Decl.fields] at member
    cases member

theorem decls_haveFields : ∀ (visible : Bool) (ds : List Decl) {e : Field},
    e ∈ Decl.fieldsOf visible ds → e.IsIn info (partsOf c info visible ds)
  | visible, [], e, member => by
    rw [Decl.fieldsOf] at member
    cases member
  | visible, d :: ds, e, member => by
    rw [Decl.fieldsOf, List.mem_append] at member
    rw [partsOf]
    rcases member with member | member
    · exact (decl_hasFields visible d member).mono (List.subset_append_left _ _)
    · exact (decls_haveFields visible ds member).mono (List.subset_append_right _ _)

end

end Emission

section

variable {table : Table} {o : CompileOptions} {name src : String} {a : Analysis} {c : Compiled}

/-- A static field that is no constant expression is declared with all of its modifiers in its class.
In the source it is defined by a piece that starts with its type, as if it had none; the piece is
what repeats the declaration only if the field is neither constant nor volatile nor local to its
thread. -/
theorem compile_defines_fields (analysis : analyze table name src = .ok a)
    (compiled : compile table o name src = .ok c) {e : Field} (member : e ∈ a.fields)
    (outside : isStaticField e.var = true) :
    let ms := e.var.info.modifiers
    ∃ bare full, variableText a.info e.var e.var.name {} false = .ok bare ∧
      variableText a.info e.var e.fullName {} true = .ok full ∧
      (ms.lead ++ bare ++ ";").toList <:+: (c.unit.text (sheetOf e.shown)).toList ∧
      memberDefinition a.info e.owner (.var e.var) =
        (do align (lineOf e.var.info); write (full ++ ";")) ∧
      (full ++ ";").toList <:+: c.unit.source.toList ∧
      (variableText a.info e.var e.fullName ms.repeated true = .ok full ↔
        ms.has .const = false ∧ ms.has .volatile = false ∧ ms.has .threadLocal = false) := by
  intro ms
  obtain ⟨a', again, compiled⟩ := except_bind_ok compiled
  obtain rfl := Except.ok.inj (again.symm.trans analysis)
  obtain ⟨unit, emitted, compiled⟩ := except_bind_ok compiled
  cases compiled
  have fields (c : Include.Context) : e.IsIn a'.info _ := decls_haveFields (c := c) true _ member
  obtain ⟨q, ⟨t, given, kept⟩, declares⟩ := CppUnit.leaves_of_emit (mapError_ok emitted)
    (fun c => (fields c).declaration) declares_lasting
  rw [Field.declaration, outside, variableText_lead] at given
  rw [map_eq_pure_bind] at given
  obtain ⟨bare, simple, whole⟩ := except_bind_ok given
  cases whole
  have apart : memberDefinition a'.info e.owner (.var e.var) = (do
      align (lineOf e.var.info)
      (do write ((← variableText a'.info e.var e.fullName {} true) ++ ";"))) := by
    rw [memberDefinition, if_pos outside]
    rfl
  have defined (c : Include.Context) : ∃ p ∈ partsOf c a'.info true a'.file.decls, p.sheet = .source ∧
      Leaves p.text (Declares (variableText a'.info e.var e.fullName {} true)) := by
    obtain ⟨p, inside, place, text⟩ := (fields c).definition
    refine ⟨p, inside, place, ?_⟩
    rw [text, apart]
    exact .bind fun _ => written_leaves
  obtain ⟨q', ⟨full, given', kept'⟩, defines⟩ :=
    CppUnit.leaves_of_emit (mapError_ok emitted) defined declares_lasting
  have source : q'.text = unit.source := defines
  refine ⟨bare, full, simple, given', declares ▸ kept.text, ?_, source ▸ kept'.text, ?_⟩
  · rw [apart, given']
    rfl
  · rw [variableText_lead, given', ← Modifiers.lead_repeated]
    refine ⟨fun same => ?_, fun none => ?_⟩
    · have same := congrArg String.toList (Except.ok.inj same)
      rw [String.toList_append] at same
      exact String.toList_inj.mp (List.append_left_eq_self.mp same)
    · rw [none]
      exact congrArg Except.ok (String.empty_append)

end

/-- A constant of a class. -/
def constantFieldText : String := "class A {
  static const copy x: int = 1;
}
"

theorem compile_defines_fields_constant :
    ∃ a c, analyze Table.default "main.tasty" constantFieldText = .ok a ∧
      compile Table.default {} "main.tasty" constantFieldText = .ok c ∧
      ∃ e ∈ a.fields, e.var.info.modifiers.has .const = true ∧
        isStaticField e.var = true ∧ ∃ bare full,
        variableText a.info e.var e.var.name {} false = .ok bare ∧
        (e.var.info.modifiers.lead ++ bare ++ ";").toList <:+:
          (c.unit.text (sheetOf e.shown)).toList ∧
        memberDefinition a.info e.owner (.var e.var) =
          (do align (lineOf e.var.info); write (full ++ ";")) ∧
        (full ++ ";").toList <:+: c.unit.source.toList ∧
        variableText a.info e.var e.fullName e.var.info.modifiers.repeated true ≠ .ok full := by
  have found : (compiled? Table.default {} "main.tasty" constantFieldText).any (fun r =>
      r.1.fields.any fun e => e.var.info.modifiers.has .const && isStaticField e.var) = true := by
    rw [compiled?, compile, analyze, constantFieldText, File.read_ofList]
    decide +kernel
  obtain ⟨⟨a, c⟩, steps, found⟩ := (Option.any_eq_true _ _).mp found
  obtain ⟨analysis, compiled⟩ := compiled?_some steps
  obtain ⟨e, member, found⟩ := List.any_eq_true.mp found
  obtain ⟨const, outside⟩ := (Bool.and_eq_true _ _).mp found
  obtain ⟨bare, full, given, -, declared, piece, defined, same⟩ :=
    compile_defines_fields analysis compiled member outside
  refine ⟨a, c, analysis, compiled, e, member, const, outside, bare, full, given, declared, piece,
    defined, fun repeated => ?_⟩
  rw [(same.mp repeated).1] at const
  cases const

/-- The header declares the field to be constant, and the source defines it as a variable. -/
theorem constant_field_loses_const :
    ∃ c, compile Table.default { pragmaOnce := true } "main.tasty" constantFieldText = .ok c ∧
      Text.cut '\n' c.unit.header = ["#pragma once", "class A \x7b", "public:",
        "\tstatic const int x;", "\x7d;", ""] ∧
      Text.cut '\n' c.unit.source = ["#include \"main.hpp\"", "int A::x = 1;", ""] := by
  have found : (compile Table.default { pragmaOnce := true } "main.tasty"
      constantFieldText).toOption.any (fun c =>
        Text.cut '\n' c.unit.header = ["#pragma once", "class A \x7b", "public:",
          "\tstatic const int x;", "\x7d;", ""] ∧
        Text.cut '\n' c.unit.source = ["#include \"main.hpp\"", "int A::x = 1;", ""]) = true := by
    rw [compile, analyze, constantFieldText, File.read_ofList]
    decide +kernel
  obtain ⟨c, compiled, found⟩ := (Option.any_eq_true _ _).mp found
  exact ⟨c, toOption_eq_some compiled, of_decide_eq_true found⟩

end TastyLang
