import TastyLang.Proofs.Attribute.Composition
import TastyLang.Proofs.Evaluation
import TastyLang.Proofs.Resolution.Completeness

/-!
# Where attributes are used

Attributes stand in front of declarations at any depth. `File.sites` lists all places where they may
stand. Expansion gives a declaration what its uses generate; it looks neither at the uses of a
definition nor at those of a function that a binding adds (`File.expand_treats`).
-/

namespace TastyLang

namespace Attribute

/-- What kind of declaration attributes stand in front of. -/
inductive Site where
  /-- a declaration of the file, of a namespace or of a class -/
  | own
  /-- a definition of an attribute -/
  | definition
  /-- a function of an `abstract` or `refurbish` declaration -/
  | bound
  deriving DecidableEq

/-- What is generated for a declaration is at least what `fx` gives. -/
structure Carries (g : Generated) (fx : Effects) : Prop where
  append : fx.append <:+: g.append
  prepend : fx.prepend <:+: g.prepend
  includes : fx.includes <:+: g.includes
  noHeader : fx.noHeader = true → g.noHeader = true

/-- The use is one of a known attribute with the right number of arguments, and what it gives is
generated for its declaration. -/
structure Applied (defs : List Definition) (g : Generated) (u : AttributeUse) : Prop where
  known : Known defs u.name
  fits : Fits defs u
  carried : ∃ fx, expand defs defs.length [] [] u = .ok fx ∧ Carries g fx

/-- What expansion makes of the notes of a declaration. -/
structure Treated (defs : List Definition) (s s' : Site × DeclInfo) : Prop where
  site : s'.1 = s.1
  same : { s'.2 with generated := s.2.generated } = s.2
  applied : s.1 = .own → ∀ u ∈ s.2.attrs, Applied defs s'.2.generated u
  skipped : s.1 ≠ .own → s' = s

end Attribute

open Attribute

mutual

/-- The places where attributes may stand in a declaration, with the notes of what follows. -/
def Decl.sites : Decl → List (Site × DeclInfo)
  | .item i => [(.own, i.info)]
  | .scope info _ ds => (.own, info) :: Decl.sitesIn ds
  | .cls info _ _ items => (.own, info) :: items.map fun i => (.own, i.info)
  | .attributeDef info _ _ _ => [(.definition, info)]
  | .abstraction info _ _ fs | .refurbish info _ fs =>
    (.own, info) :: fs.map fun f => (.bound, f.info)
  | .includes info _ _ _ | .assume info _ _ => [(.own, info)]

def Decl.sitesIn : List Decl → List (Site × DeclInfo)
  | [] => []
  | d :: ds => d.sites ++ Decl.sitesIn ds

end

def File.sites (file : File) : List (Site × DeclInfo) := Decl.sitesIn file.decls

def ownUses (sites : List (Site × DeclInfo)) : List AttributeUse :=
  sites.flatMap fun s => if s.1 = .own then s.2.attrs else []

namespace Attribute

variable {defs : List Definition} {s s' s'' : Site × DeclInfo} {info info' : DeclInfo}

/-! ### Notes -/

theorem mapM_forall₂ {ε α β : Type} {f : α → Except ε β} {xs : List α} {ys : List β}
    (run : xs.mapM f = .ok ys) : List.Forall₂ (fun x y => f x = .ok y) xs ys := by
  induction xs generalizing ys with
  | nil =>
    cases run
    exact .nil
  | cons x xs ih =>
    rw [List.mapM_cons] at run
    obtain ⟨y, here, run⟩ := except_bind_ok run
    obtain ⟨rest, later, same⟩ := except_bind_ok run
    cases same
    exact .cons here (ih later)

theorem Carries.union {g : Generated} {fx fx' : Effects} (whole : Carries g (fx.union fx')) :
    Carries g fx ∧ Carries g fx' where
  left := ⟨(List.prefix_append _ _).isInfix.trans whole.append,
    (List.prefix_append _ _).isInfix.trans whole.prepend,
    (List.prefix_append _ _).isInfix.trans whole.includes,
    fun out => whole.noHeader (Bool.or_eq_true_iff.mpr (.inl out))⟩
  right := ⟨(List.suffix_append _ _).isInfix.trans whole.append,
    (List.suffix_append _ _).isInfix.trans whole.prepend,
    (List.suffix_append _ _).isInfix.trans whole.includes,
    fun out => whole.noHeader (Bool.or_eq_true_iff.mpr (.inr out))⟩

theorem Carries.foldl {g : Generated} {fx : Effects} {fxs : List Effects}
    (whole : Carries g (fxs.foldl Effects.union fx)) : Carries g fx ∧ ∀ x ∈ fxs, Carries g x := by
  induction fxs generalizing fx with
  | nil => exact ⟨whole, fun x member => absurd member List.not_mem_nil⟩
  | cons a fxs ih =>
    obtain ⟨first, rest⟩ := ih whole
    refine ⟨first.union.1, List.forall_mem_cons.mpr ⟨first.union.2, rest⟩⟩

theorem generate_carries (info : DeclInfo) (fxs : List Effects) :
    ∀ fx ∈ fxs, Carries (generate info fxs).generated fx := by
  have whole : Carries (generate info fxs).generated (fxs.foldl Effects.union {}) :=
    ⟨(List.suffix_append _ _).isInfix, (List.suffix_append _ _).isInfix,
      (List.suffix_append _ _).isInfix, fun out => Bool.or_eq_true_iff.mpr (.inr out)⟩
  exact whole.foldl.2

theorem expandInfo_treated (run : expandInfo defs info = .ok info') :
    Treated defs (.own, info) (.own, info') := by
  obtain ⟨fxs, effects, same⟩ := except_bind_ok run
  cases same
  refine ⟨rfl, rfl, fun _ u member => ?_, fun other => absurd rfl other⟩
  obtain ⟨fx, inside, one⟩ : ∃ fx ∈ fxs, expand defs defs.length [] [] u = .ok fx := by
    obtain ⟨i, lt, rfl⟩ := List.mem_iff_getElem.mp member
    have each := mapM_forall₂ effects
    exact ⟨_, List.getElem_mem (each.length_eq ▸ lt), each.get lt (each.length_eq ▸ lt)⟩
  obtain ⟨known, fits⟩ := (composed_of_expand one).own
  exact ⟨known, fits, fx, one, generate_carries info fxs fx inside⟩

theorem treated_skip (other : s.1 ≠ .own) : Treated defs s s :=
  ⟨rfl, rfl, fun own => absurd own other, fun _ => rfl⟩

/-! ### Declarations -/

theorem expandItem_treated {i i' : Item} (run : expandItem defs i = .ok i') :
    Treated defs (.own, i.info) (.own, i'.info) := by
  obtain ⟨info, own, same⟩ := except_bind_ok run
  cases same
  cases i <;> exact expandInfo_treated own

mutual

theorem expandDecl_treats : (d : Decl) → {d' : Decl} → expandDecl defs d = .ok d' →
    List.Forall₂ (Treated defs) d.sites d'.sites
  | .item i, d', run => by
    obtain ⟨i', here, same⟩ := except_bind_ok run
    cases same
    exact .cons (expandItem_treated here) .nil
  | .scope info name ds, d', run => by
    rw [expandDecl] at run
    obtain ⟨info', own, run⟩ := except_bind_ok run
    obtain ⟨ds', inner, same⟩ := except_bind_ok run
    cases same
    exact .cons (expandInfo_treated own) (expandDecls_treat ds inner)
  | .cls info name bases items, d', run => by
    rw [expandDecl] at run
    obtain ⟨info', own, run⟩ := except_bind_ok run
    obtain ⟨items', inner, same⟩ := except_bind_ok run
    cases same
    refine .cons (expandInfo_treated own) ?_
    rw [List.forall₂_map_left_iff, List.forall₂_map_right_iff]
    exact (mapM_forall₂ inner).imp fun i i' => expandItem_treated
  | .attributeDef _ _ _ _, d', run => by
    cases run
    exact .cons (treated_skip nofun) .nil
  | .includes _ _ _ _, d', run | .assume _ _ _, d', run => by
    obtain ⟨info', own, same⟩ := except_bind_ok run
    cases same
    exact .cons (expandInfo_treated own) .nil
  | .abstraction _ _ _ _, d', run | .refurbish _ _ _, d', run => by
    obtain ⟨info', own, same⟩ := except_bind_ok run
    cases same
    refine .cons (expandInfo_treated own) (List.forall₂_same.mpr fun s member => ?_)
    obtain ⟨f, -, rfl⟩ := List.mem_map.mp member
    exact treated_skip nofun

theorem expandDecls_treat : (ds : List Decl) → {ds' : List Decl} → expandDecls defs ds = .ok ds' →
    List.Forall₂ (Treated defs) (Decl.sitesIn ds) (Decl.sitesIn ds')
  | [], _, run => by
    cases run
    exact .nil
  | d :: ds, ds', run => by
    rw [expandDecls] at run
    obtain ⟨d', here, run⟩ := except_bind_ok run
    obtain ⟨rest, later, same⟩ := except_bind_ok run
    cases same
    exact List.rel_append (expandDecl_treats d here) (expandDecls_treat ds later)

end

/-! ### Inheritance -/

/-- A class has what it inherits noted; nothing else changes. -/
inductive Heired : Site × DeclInfo → Site × DeclInfo → Prop where
  | refl (s : Site × DeclInfo) : Heired s s
  | heir (info : DeclInfo) (inherited : List String) :
    Heired (.own, info) (.own, { info with generated := { info.generated with inherited } })

theorem Treated.heired (treated : Treated defs s s') (heired : Heired s' s'') :
    Treated defs s s'' := by
  cases heired with
  | refl => exact treated
  | heir info inherited =>
    have own : s.1 = .own := treated.site.symm
    refine ⟨treated.site, treated.same, fun own u member => ?_, fun other => absurd own other⟩
    obtain ⟨known, fits, fx, run, carried⟩ := treated.applied own u member
    exact ⟨known, fits, fx, run, carried.append, carried.prepend, carried.includes,
      carried.noHeader⟩

theorem treated_heired {ss ss' ss'' : List (Site × DeclInfo)}
    (treated : List.Forall₂ (Treated defs) ss ss') (heired : List.Forall₂ Heired ss' ss'') :
    List.Forall₂ (Treated defs) ss ss'' := by
  induction treated generalizing ss'' with
  | nil =>
    cases heired
    exact .nil
  | cons first _ ih =>
    cases heired with
    | cons here rest => exact .cons (first.heired here) (ih rest)

theorem heired_refl (ss : List (Site × DeclInfo)) : List.Forall₂ Heired ss ss :=
  List.forall₂_same.mpr fun s _ => .refl s

mutual

theorem inheritDecl_heired (known : List (Span × List String)) : (d : Decl) →
    List.Forall₂ Heired d.sites (inheritDecl known d).sites
  | .cls _ _ _ _ => .cons (.heir _ _) (heired_refl _)
  | .scope _ _ ds => .cons (.refl _) (inheritDecls_heired known ds)
  | .item _ | .includes _ _ _ _ | .assume _ _ _ | .abstraction _ _ _ _ | .refurbish _ _ _
  | .attributeDef _ _ _ _ => heired_refl _

theorem inheritDecls_heired (known : List (Span × List String)) : (ds : List Decl) →
    List.Forall₂ Heired (Decl.sitesIn ds) (Decl.sitesIn (inheritDecls known ds))
  | [] => .nil
  | d :: ds => List.rel_append (inheritDecl_heired known d) (inheritDecls_heired known ds)

end

end Attribute

mutual

theorem Decl.ownUses_sites : (d : Decl) → ownUses d.sites = d.applied
  | .item i => by simp [ownUses, Decl.sites, Decl.applied]
  | .scope info _ ds => by
    rw [Decl.sites, Decl.applied, ← Decl.ownUses_sitesIn ds]
    rfl
  | .cls info _ _ items => by
    rw [Decl.sites, Decl.applied, ownUses, List.flatMap_cons, List.flatMap_map]
    rfl
  | .attributeDef _ _ _ _ => rfl
  | .includes _ _ _ _ | .assume _ _ _ => List.append_nil _
  | .abstraction info _ _ fs | .refurbish info _ fs => by
    rw [Decl.sites, Decl.applied, ownUses, List.flatMap_cons, List.flatMap_map]
    simp

theorem Decl.ownUses_sitesIn : (ds : List Decl) → ownUses (Decl.sitesIn ds) = Decl.appliedIn ds
  | [] => rfl
  | d :: ds => by
    rw [Decl.sitesIn, Decl.appliedIn, ← Decl.ownUses_sites d, ← Decl.ownUses_sitesIn ds]
    exact List.flatMap_append

end

theorem mem_applied {file : File} {u : AttributeUse} :
    u ∈ file.applied ↔ ∃ s ∈ file.sites, s.1 = .own ∧ u ∈ s.2.attrs := by
  rw [File.applied, ← Decl.ownUses_sitesIn, ownUses, List.mem_flatMap]
  refine exists_congr fun s => and_congr_right fun _ => ?_
  by_cases own : s.1 = .own <;> simp [own]

/-- A file can be expanded if its uses at places of their own make sense, and each of them is
applied then. All other uses have no effect. -/
theorem File.expand_treats (file : File) (info : Option Info) :
    let defs := definitionsOf file.decls
    ((∃ file', file.expand info = .ok file') ↔
        ∀ s ∈ file.sites, s.1 = .own → ∀ u ∈ s.2.attrs, Sensible defs u) ∧
      ∀ file', file.expand info = .ok file' →
        List.Forall₂ (Treated defs) file.sites file'.sites := by
  intro defs
  constructor
  · have whole := expandFile_expands file info
    simp only [← expand_ok_iff]
    constructor
    · rintro ⟨file', run⟩ s member own u inside
      rw [run] at whole
      exact whole u (mem_applied.mpr ⟨s, member, own, inside⟩)
    · intro all
      cases run : file.expand info with
      | ok file' => exact ⟨file', rfl⟩
      | error e =>
        rw [run] at whole
        obtain ⟨u, member, failed⟩ := whole
        obtain ⟨s, member, own, inside⟩ := mem_applied.mp member
        obtain ⟨fx, run⟩ := all s member own u inside
        cases run.symm.trans failed
  · intro file' run
    obtain ⟨ds, expanded, run⟩ := except_bind_ok run
    have treated := expandDecls_treat file.decls expanded
    cases info with
    | none =>
      cases run
      exact treated
    | some info =>
      cases run
      exact treated_heired treated (inheritDecls_heired _ ds)

/-- A binding with an attribute, whose function has one that is not defined. -/
def nopeText : String := "@NoHeader abstract A becomes int { @Nope fn f(); }\n"

def boundFile? : Option (File × File) := do
  let file ← (File.read Table.default "main.tasty" nopeText).toOption
  let file' ← (file.expand none).toOption
  return (file, file')

theorem boundFile?_some {file file' : File} (h : boundFile? = some (file, file')) :
    File.read Table.default "main.tasty" nopeText = .ok file ∧ file.expand none = .ok file' := by
  obtain ⟨_, read, h⟩ := Option.bind_eq_some_iff.mp h
  obtain ⟨_, run, h⟩ := Option.bind_eq_some_iff.mp h
  cases h
  exact ⟨toOption_eq_some read, toOption_eq_some run⟩

theorem File.expand_treats_of_bound : ∃ file file',
    File.read Table.default "main.tasty" nopeText = .ok file ∧ file.expand none = .ok file' ∧
      List.Forall₂ (Treated (definitionsOf file.decls)) file.sites file'.sites ∧
      file'.sites.map (·.2.generated.noHeader) = [true, false] := by
  have found : boundFile?.any (fun (_, file') =>
      file'.sites.map (·.2.generated.noHeader) == [true, false]) = true := by
    rw [boundFile?, nopeText, File.read_ofList]
    decide +kernel
  obtain ⟨⟨file, file'⟩, steps, flags⟩ := (Option.any_eq_true _ _).mp found
  obtain ⟨read, run⟩ := boundFile?_some steps
  exact ⟨file, file', read, run, (File.expand_treats file none).2 file' run, eq_of_beq flags⟩

/-- The use in front of the function is neither expanded nor reported. -/
theorem bound_use_ignored : ∃ file file',
    File.read Table.default "main.tasty" nopeText = .ok file ∧ file.expand none = .ok file' ∧
      ∃ s ∈ file.sites, s.1 = .bound ∧
        ∃ u ∈ s.2.attrs, ¬ Known (definitionsOf file.decls) u.name := by
  have found : boundFile?.any (fun (file, _) => (definitionsOf file.decls).isEmpty &&
      file.sites.any fun s => s.1 == .bound &&
        s.2.attrs.any fun u => (Directive.ofName? u.name).isNone) = true := by
    rw [boundFile?, nopeText, File.read_ofList]
    decide +kernel
  obtain ⟨⟨file, file'⟩, steps, here⟩ := (Option.any_eq_true _ _).mp found
  obtain ⟨read, run⟩ := boundFile?_some steps
  obtain ⟨none, here⟩ := Bool.and_eq_true_iff.mp here
  obtain ⟨s, member, here⟩ := List.any_eq_true.mp here
  obtain ⟨bound, here⟩ := Bool.and_eq_true_iff.mp here
  obtain ⟨u, inside, custom⟩ := List.any_eq_true.mp here
  refine ⟨file, file', read, run, s, member, eq_of_beq bound, u, inside, ?_⟩
  rintro (⟨d, builtin⟩ | ⟨d, defined, -⟩)
  · rw [builtin] at custom
    cases custom
  · rw [List.isEmpty_iff.mp none] at defined
    cases defined

end TastyLang
