import TastyLang.Proofs.Compilation.Lines
import TastyLang.Proofs.Emission.Unit
import TastyLang.Proofs.Evaluation

/-!
# Namespaces of the source

A namespace is opened in the source when one of its declarations needs it there. `needsSource` has
its own account of what declarations give to the source, and misses two things that `decl` writes
there: a function without a body that the header does not show, and a variable that the header does
not declare though it is `extern` or a constant expression (`Decl.isOverlooked`). `decl_needsSource`
says that these are all: whatever else changes the source needs it, and stands in its namespace.
-/

namespace TastyLang

/-! ### Ink -/

namespace Printer

/-- How many characters were written that are no blanks. -/
def ink (p : Printer) : Nat := p.output.countP fun c => !isBlank c

theorem ink_newline (p : Printer) : p.newline.ink = p.ink := by
  obtain ⟨output, depth, line, start⟩ := p
  unfold newline ink
  dsimp only
  split
  · rw [List.countP_cons_of_neg (by decide), List.countP_cons_of_neg (by decide)]
  · rw [List.countP_cons_of_neg (by decide)]

theorem ink_newlines (p : Printer) (n : Nat) : (p.newlines n).ink = p.ink := by
  induction n generalizing p with
  | zero => rfl
  | succ n ih => rw [newlines, ih, ink_newline]

theorem ink_freshLine (p : Printer) : p.freshLine.ink = p.ink := by
  unfold freshLine
  split
  · rfl
  · exact ink_newline p

theorem ink_align (p : Printer) (line : Int) : (p.align line).ink = p.ink := by
  unfold align
  split
  · exact ink_newlines p _
  · split
    · split
      · rfl
      · exact List.countP_cons_of_neg (by decide)
    · exact ink_freshLine p

theorem ink_write (p : Printer) (s : String) :
    p.ink + s.toList.countP (fun c => !isBlank c) ≤ (p.write s).ink := by
  unfold write
  split
  · next none => exact Nat.le_of_eq (by rw [none, List.countP_nil, Nat.add_zero])
  · next c cs some =>
    unfold ink
    dsimp only
    rw [List.countP_append, List.countP_append, List.countP_reverse, some]
    omega

theorem ink_le_ownLine (p : Printer) (s : String) : p.ink ≤ (p.ownLine s).ink := by
  unfold ownLine
  rw [ink_newline]
  have := ink_write p.freshLine s
  rw [ink_freshLine] at this
  omega

theorem ink_le_directive (p : Printer) (s : String) : p.ink ≤ (p.directive s).ink := by
  unfold directive
  dsimp only
  rw [ink_newline, ← ink_freshLine p]
  unfold ink
  rw [List.countP_append]
  omega

end Printer

namespace Emission

theorem generatedText_ink {t : String} {p p' : Printer} {u : Unit}
    (h : generatedText t p = .ok (u, p')) : p.ink ≤ p'.ink := by
  unfold generatedText at h
  split at h
  · rw [modify_ok h]
    exact p.ink_le_directive _
  · rw [modify_ok h]
    exact p.ink_le_ownLine _

theorem generatedTexts_ink {ts : List String} {p p' : Printer} {u : Unit}
    (h : ts.forM generatedText p = .ok (u, p')) : p.ink ≤ p'.ink := by
  induction ts generalizing p with
  | nil =>
    obtain ⟨-, rfl⟩ := pure_ok h
    exact Nat.le_refl _
  | cons t ts ih =>
    obtain ⟨_, p₁, first, h⟩ := bind_ok h
    exact Nat.le_trans (generatedText_ink first) (ih h)

theorem prepend_ink {d : DeclInfo} {p p' : Printer} {u : Unit} (h : prepend d p = .ok (u, p')) :
    p.ink ≤ p'.ink := by
  unfold prepend at h
  split at h
  · obtain ⟨-, rfl⟩ := pure_ok h
    exact Nat.le_refl _
  · obtain ⟨_, p₁, moved, h⟩ := bind_ok h
    have := generatedTexts_ink h
    rwa [align_ok moved, Printer.ink_align] at this

theorem declared_ink {d : DeclInfo} {text : Except EmitError String} {p p' : Printer} {u : Unit}
    (h : declared d text p = .ok (u, p')) : p.ink < p'.ink := by
  obtain ⟨_, p₁, front, h⟩ := bind_ok h
  obtain ⟨_, p₂, moved, h⟩ := bind_ok h
  obtain ⟨t, _, lifted, h⟩ := bind_ok h
  obtain ⟨-, rfl⟩ := lift_ok lifted
  obtain ⟨_, p₃, written, h⟩ := bind_ok h
  have front := prepend_ink front
  have behind := generatedTexts_ink h
  have here := p₂.ink_write (t ++ ";")
  rw [String.toList_append, List.countP_append, show ";".toList = [';'] from rfl,
    List.countP_cons_of_pos (by decide)] at here
  rw [align_ok moved, Printer.ink_align] at here
  rw [write_ok written, align_ok moved] at behind
  omega

end Emission

/-! ### What is overlooked -/

section

variable (info : Info)

/-- A variable that stands in the source only, though it is `extern` or a constant expression of a
place that the header shows. -/
def VarDecl.isOverlooked (shown : Bool) (d : VarDecl) : Bool :=
  (d.info.modifiers.has .external || shown && d.info.modifiers.has .constexpr) &&
    !(shown && !d.info.modifiers.has .static && !(info.varType d).anonymous)

def Item.isOverlooked (shown : Bool) : Item → Bool
  | .func f => f.body.isNone && !shown
  | .var d => d.isOverlooked info shown
  | .enum _ | .inject _ _ => false

mutual

/-- Whether a declaration gives something to the source that `needsSource` does not see. -/
def Decl.isOverlooked (visible : Bool) (d : Decl) : Bool :=
  match d with
  | .item i => i.isOverlooked info (visible && !i.info.generated.noHeader)
  | .scope i _ ds =>
    !Emission.needsSourceAny info (visible && !i.generated.noHeader) ds &&
      Decl.anyOverlooked (visible && !i.generated.noHeader) ds
  | .cls _ _ _ _ | .abstraction _ _ _ _ | .refurbish _ _ _ | .includes _ _ _ _ | .assume _ _ _
  | .attributeDef _ _ _ _ => false

def Decl.anyOverlooked (visible : Bool) : List Decl → Bool
  | [] => false
  | d :: ds => d.isOverlooked visible || Decl.anyOverlooked visible ds

end

end

namespace Emission

variable {info : Info} {visible : Bool} {s s' : Sheets} {u : Unit}

/-- What a part that does not need the source does to it: it leaves the source alone, or it writes
there and is overlooked. -/
def Misses (overlooked : Bool) (s s' : Sheets) : Prop :=
  if overlooked then s.source.ink < s'.source.ink else s'.source = s.source

theorem misses_header {e : Emitter Unit} (h : on .header e s = .ok (u, s')) : Misses false s s' :=
  on_header h

theorem Misses.append {a b : Bool} {s₁ : Sheets} (first : Misses a s s₁) (rest : Misses b s₁ s') :
    Misses (a || b) s s' := by
  unfold Misses at *
  cases a with
  | false =>
    cases b with
    | false => exact rest.trans first
    | true => exact first ▸ rest
  | true =>
    cases b with
    | false => exact (congrArg Printer.ink rest) ▸ first
    | true => exact Nat.lt_trans first rest

theorem func_misses {f : FuncDecl} (unneeded : (f.body.isSome && !(visible && isInline f)) = false)
    (h : func info f visible s = .ok (u, s')) : Misses (f.body.isNone && !visible) s s' := by
  unfold func at h
  cases body : f.body with
  | none =>
    rw [body] at h
    cases visible with
    | true => exact misses_header h
    | false =>
      obtain ⟨_, run⟩ := on_source h
      exact declared_ink run
  | some b =>
    rw [body] at h unneeded
    have inlined : (visible && isInline f) = true := by simpa using unneeded
    dsimp only at h
    rw [if_pos inlined] at h
    exact misses_header h

theorem global_misses {d : VarDecl} (unneeded : (!d.info.modifiers.has .external &&
      !(visible && d.info.modifiers.has .constexpr)) = false)
    (h : global info d visible s = .ok (u, s')) : Misses (d.isOverlooked info visible) s s' := by
  have unneeded : (d.info.modifiers.has .external ||
      visible && d.info.modifiers.has .constexpr) = true := by
    rwa [← Bool.not_or, Bool.not_eq_false'] at unneeded
  unfold global at h
  dsimp only at h
  unfold VarDecl.isOverlooked
  rw [unneeded, Bool.true_and]
  split at h
  · next shown =>
    rw [shown]
    split at h
    · exact misses_header h
    · next varies =>
      obtain ⟨_, s₁, first, h⟩ := bind_ok h
      have external : d.info.modifiers.has .external = true := by
        rwa [Bool.eq_false_iff.mpr varies, Bool.and_false, Bool.or_false] at unneeded
      rw [external] at h
      obtain ⟨-, rfl⟩ := pure_ok h
      exact misses_header first
  · next hidden =>
    rw [Bool.eq_false_iff.mpr hidden]
    obtain ⟨_, run⟩ := on_source h
    exact declared_ink run

theorem item_misses {i : Item}
    (unneeded : itemNeedsSource (visible && !i.info.generated.noHeader) i = false)
    (h : item info visible i s = .ok (u, s')) :
    Misses (i.isOverlooked info (visible && !i.info.generated.noHeader)) s s' := by
  cases i with
  | var d => exact global_misses unneeded h
  | func f => exact func_misses unneeded h
  | enum d =>
    have shown : (visible && !d.info.generated.noHeader) = true := by
      simpa [itemNeedsSource, Item.info] using unneeded
    unfold item Item.info at h
    dsimp only at h
    rw [shown] at h
    exact misses_header h
  | inject di text =>
    have shown : (visible && !di.generated.noHeader) = true := by
      simpa [itemNeedsSource, Item.info] using unneeded
    unfold item Item.info at h
    dsimp only at h
    rw [shown] at h
    exact misses_header h

theorem memberDefinitions_nothing {name : String} {items : List Item}
    (unneeded : (items.any fun
      | .func f => f.body.isSome
      | .var d => isStaticField d
      | _ => false) = false)
    (h : items.forM (fun i => on .source (memberDefinition info name i)) s = .ok (u, s')) :
    s'.source = s.source := by
  induction items generalizing s with
  | nil =>
    obtain ⟨-, rfl⟩ := pure_ok h
    rfl
  | cons i items ih =>
    rw [List.any_cons, Bool.or_eq_false_iff] at unneeded
    obtain ⟨_, s₁, first, h⟩ := bind_ok h
    rw [ih unneeded.2 h]
    obtain ⟨_, run⟩ := on_source first
    have nothing : memberDefinition info name i = pure () := by
      cases i with
      | func f =>
        have bodiless : f.body = none := Option.isNone_iff_eq_none.mp
          (Option.isSome_eq_false_iff.mp unneeded.1)
        simp only [memberDefinition, bodiless]
      | var d =>
        have plain : isStaticField d = false := unneeded.1
        simp [memberDefinition, plain]
      | enum | inject => rfl
    rw [nothing] at run
    exact (pure_ok run).2.symm

theorem extensions_nothing {shown : Bool} {fs : List FuncDecl} (unneeded : hasExtensions info fs = false)
    (h : fs.forM (Emission.extension info shown) s = .ok (u, s')) : s'.source = s.source := by
  induction fs generalizing s with
  | nil =>
    obtain ⟨-, rfl⟩ := pure_ok h
    rfl
  | cons f fs ih =>
    unfold hasExtensions at unneeded
    rw [List.any_cons, Bool.or_eq_false_iff] at unneeded
    obtain ⟨_, s₁, first, h⟩ := bind_ok h
    rw [ih unneeded.2 h]
    unfold Emission.extension at first
    rw [Option.isNone_iff_eq_none.mp (Option.isSome_eq_false_iff.mp unneeded.1)] at first
    exact congrArg Sheets.source (pure_ok first).2.symm

/-- The sheets in which a namespace is opened. -/
def scopeSheets (shown needed : Bool) : List Sheet :=
  (if shown then [Sheet.header] else []) ++ (if needed then [.source] else [])

theorem scopeSheets_source {shown needed : Bool} {e : Emitter Unit}
    (h : (scopeSheets shown needed).forM (fun sheet => on sheet e) s = .ok (u, s')) :
    if needed then ∃ v, e s.source = .ok (v, s'.source) else s'.source = s.source := by
  cases shown <;> cases needed
  · exact congrArg Sheets.source (pure_ok h).2.symm
  · obtain ⟨_, s₁, run, h⟩ := bind_ok h
    obtain ⟨-, rfl⟩ := pure_ok h
    exact on_source run
  · obtain ⟨_, s₁, run, h⟩ := bind_ok h
    obtain ⟨-, rfl⟩ := pure_ok h
    exact on_header run
  · obtain ⟨_, s₁, first, h⟩ := bind_ok h
    obtain ⟨_, s₂, run, h⟩ := bind_ok h
    obtain ⟨-, rfl⟩ := pure_ok h
    rw [← on_header first]
    exact on_source run

theorem scope_ok {di : DeclInfo} {name : String} {ds : List Decl}
    (h : decl info visible (.scope di name ds) s = .ok (u, s')) :
    ∃ s₁ s₂ v,
      (scopeSheets (visible && !di.generated.noHeader) (needsSource info visible (.scope di name ds))).forM
        (fun sheet => on sheet (openScope di name)) s = .ok ((), s₁) ∧
      decls info (visible && !di.generated.noHeader) ds s₁ = .ok (v, s₂) ∧
      (scopeSheets (visible && !di.generated.noHeader) (needsSource info visible (.scope di name ds))).forM
        (fun sheet => on sheet (closeScope di)) s₂ = .ok ((), s') := by
  have same : needsSource info (visible && !di.generated.noHeader) (.scope di name ds) =
      needsSource info visible (.scope di name ds) := by
    rw [needsSource, needsSource, Bool.and_assoc, Bool.and_self]
  rw [decl, same] at h
  obtain ⟨_, s₁, opened, h⟩ := bind_ok h
  obtain ⟨v, s₂, inside, closed⟩ := bind_ok h
  exact ⟨s₁, s₂, v, opened, inside, closed⟩

mutual

theorem decl_misses : ∀ {d : Decl} {visible : Bool} {s s' : Sheets} {u : Unit},
    needsSource info visible d = false → decl info visible d s = .ok (u, s') →
    Misses (d.isOverlooked info visible) s s'
  | .item i, visible, s, s', u, unneeded, h => by
    rw [needsSource] at unneeded
    rw [decl] at h
    rw [Decl.isOverlooked]
    exact item_misses unneeded h
  | .scope di name ds, visible, s, s', u, unneeded, h => by
    obtain ⟨s₁, s₂, v, opened, inside, closed⟩ := scope_ok h
    rw [unneeded] at opened closed
    have before := scopeSheets_source opened
    have behind := scopeSheets_source closed
    rw [needsSource] at unneeded
    have inside := decls_miss unneeded inside
    rw [Decl.isOverlooked, unneeded, Bool.not_false, Bool.true_and]
    unfold Misses at inside ⊢
    rwa [before, ← behind] at inside
  | .cls di name bases items, visible, s, s', u, unneeded, h => by
    rw [needsSource, Bool.or_eq_false_iff, Bool.not_eq_false'] at unneeded
    rw [decl] at h
    unfold cls at h
    obtain ⟨_, s₁, first, h⟩ := bind_ok h
    rw [unneeded.1] at first
    rw [Decl.isOverlooked]
    exact (memberDefinitions_nothing unneeded.2 h).trans (on_header first)
  | .abstraction di name target fs, visible, s, s', u, unneeded, h
  | .refurbish di target fs, visible, s, s', u, unneeded, h => by
    rw [needsSource] at unneeded
    rw [decl] at h
    rw [Decl.isOverlooked]
    exact extensions_nothing unneeded h
  | .includes _ _ _ _, visible, s, s', u, unneeded, h
  | .assume _ _ _, visible, s, s', u, unneeded, h
  | .attributeDef _ _ _ _, visible, s, s', u, unneeded, h => by
    rw [decl] at h
    rw [Decl.isOverlooked]
    exact congrArg Sheets.source (pure_ok h).2.symm

theorem decls_miss : ∀ {ds : List Decl} {visible : Bool} {s s' : Sheets} {u : Unit},
    needsSourceAny info visible ds = false → decls info visible ds s = .ok (u, s') →
    Misses (Decl.anyOverlooked info visible ds) s s'
  | [], visible, s, s', u, unneeded, h => by
    rw [decls] at h
    rw [Decl.anyOverlooked]
    exact congrArg Sheets.source (pure_ok h).2.symm
  | d :: ds, visible, s, s', u, unneeded, h => by
    rw [needsSourceAny, Bool.or_eq_false_iff] at unneeded
    rw [decls] at h
    obtain ⟨_, s₁, first, h⟩ := bind_ok h
    have first := decl_misses unneeded.1 first
    have rest := decls_miss unneeded.2 h
    rw [Decl.anyOverlooked]
    exact first.append rest

end

theorem needsSource_of_isOverlooked {d : Decl} (h : d.isOverlooked info visible = true) :
    needsSource info visible d = false := by
  cases d with
  | item i =>
    rw [Decl.isOverlooked] at h
    rw [needsSource]
    cases i with
    | func f =>
      have bodiless := (Bool.and_eq_true _ _).mp h |>.1
      simp [itemNeedsSource, Option.isNone_iff_eq_none.mp bodiless]
    | var d =>
      have kind := (Bool.and_eq_true _ _).mp h |>.1
      show (!_ && !_) = false
      rw [← Bool.not_or, kind]
      rfl
    | enum | inject => cases h
  | scope di name ds =>
    rw [Decl.isOverlooked] at h
    rw [needsSource]
    exact Bool.not_eq_true' _ |>.mp ((Bool.and_eq_true _ _).mp h).1
  | _ =>
    rw [Decl.isOverlooked] at h
    cases h

/-- Whatever a declaration gives to the source needs it, exactly if it is not overlooked; then all
that a namespace gives to the source stands between its braces there. -/
theorem decl_needsSource {d : Decl} (h : decl info visible d s = .ok (u, s')) :
    ((s'.source ≠ s.source → needsSource info visible d = true) ↔
        d.isOverlooked info visible = false) ∧
      ∀ di name ds, d = .scope di name ds → d.isOverlooked info visible = false →
        s'.source ≠ s.source → ∃ s₁ s₂ v,
          openScope di name s.source = .ok ((), s₁.source) ∧
          decls info (visible && !di.generated.noHeader) ds s₁ = .ok (v, s₂) ∧
          closeScope di s₂.source = .ok ((), s'.source) := by
  have needs (seen : d.isOverlooked info visible = false) (changed : s'.source ≠ s.source) :
      needsSource info visible d = true := by
    refine (Bool.not_eq_false _).mp fun unneeded => changed ?_
    have misses := decl_misses unneeded h
    rwa [seen] at misses
  refine ⟨⟨fun all => ?_, needs⟩, ?_⟩
  · refine (Bool.not_eq_true _).mp fun overlooked => ?_
    have unneeded := needsSource_of_isOverlooked overlooked
    have misses := decl_misses unneeded h
    rw [overlooked] at misses
    have grows : s.source.ink < s'.source.ink := misses
    have changed : s'.source ≠ s.source := fun same => Nat.ne_of_gt grows (congrArg _ same)
    cases (all changed).symm.trans unneeded
  · rintro di name ds rfl seen changed
    obtain ⟨s₁, s₂, v, opened, inside, closed⟩ := scope_ok h
    rw [needs seen changed] at opened closed
    obtain ⟨_, opened⟩ := scopeSheets_source opened
    obtain ⟨_, closed⟩ := scopeSheets_source closed
    exact ⟨s₁, s₂, v, opened, inside, closed⟩

/-- The declarations of a file that consists of one namespace. -/
def scoped? (file : File) : Option (DeclInfo × String × List Decl) :=
  match file.decls with
  | [.scope di name ds] => some (di, name, ds)
  | _ => none

theorem scoped?_some {file : File} {di : DeclInfo} {name : String} {ds : List Decl}
    (h : scoped? file = some (di, name, ds)) : file.decls = [.scope di name ds] := by
  unfold scoped? at h
  split at h
  · next decls =>
    cases h
    exact decls
  · cases h

def scopedText : String := "namespace N {
  copy x = 1;
}
"

/-- A variable is defined in its namespace. -/
theorem decl_needsSource_of_variable :
    ∃ a di name ds s', analyze Table.default "main.tasty" scopedText = .ok a ∧
      a.file.decls = [.scope di name ds] ∧
      decl a.info true (.scope di name ds) {} = .ok ((), s') ∧ s'.source ≠ {} ∧
      needsSource a.info true (.scope di name ds) = true ∧ ∃ s₁ s₂ v,
        openScope di name {} = .ok ((), s₁.source) ∧
        decls a.info (true && !di.generated.noHeader) ds s₁ = .ok (v, s₂) ∧
        closeScope di s₂.source = .ok ((), s'.source) := by
  have found : (analyze Table.default "main.tasty" scopedText).toOption.any (fun a =>
      (scoped? a.file).any fun (di, name, ds) =>
        (decl a.info true (.scope di name ds) {}).toOption.any fun r =>
          decide (r.2.source ≠ {}) && !(Decl.scope di name ds).isOverlooked a.info true) = true := by
    rw [analyze, scopedText, File.read_ofList]
    decide +kernel
  obtain ⟨a, analyzed, found⟩ := (Option.any_eq_true _ _).mp found
  obtain ⟨⟨di, name, ds⟩, lone, found⟩ := (Option.any_eq_true _ _).mp found
  obtain ⟨⟨_, s'⟩, run, found⟩ := (Option.any_eq_true _ _).mp found
  simp only [Bool.and_eq_true, decide_eq_true_eq, Bool.not_eq_true'] at found
  obtain ⟨changed, seen⟩ := found
  have run := toOption_eq_some run
  obtain ⟨needs, inside⟩ := decl_needsSource run
  exact ⟨a, di, name, ds, s', toOption_eq_some analyzed, scoped?_some lone, run, changed,
    needs.mpr seen changed, inside di name ds rfl seen changed⟩

def overlookedText : String := "namespace N {
  static constexpr copy x = 1;
}
"

/-- A static constant expression is written outside of its namespace. -/
theorem needsSource_overlooks :
    ∃ a di name d s' c, analyze Table.default "main.tasty" overlookedText = .ok a ∧
      a.file.decls = [.scope di name [d]] ∧ decl a.info true d {} = .ok ((), s') ∧
      s'.source ≠ {} ∧ needsSource a.info true d = false ∧
      compile Table.default {} "main.tasty" overlookedText = .ok c ∧
      c.unit.source = "#include \"main.hpp\"\nstatic constexpr int x = 1;\n" := by
  have found : (compiled? Table.default {} "main.tasty" overlookedText).any (fun r =>
      (r.2.unit.source == "#include \"main.hpp\"\nstatic constexpr int x = 1;\n") &&
      (scoped? r.1.file).any fun q => q.2.2.length == 1 && q.2.2.all fun d =>
        !needsSource r.1.info true d &&
          (decl r.1.info true d {}).toOption.any fun q => decide (q.2.source ≠ {})) = true := by
    rw [compiled?, compile, analyze, overlookedText, File.read_ofList]
    decide +kernel
  obtain ⟨⟨a, c⟩, steps, found⟩ := (Option.any_eq_true _ _).mp found
  obtain ⟨analyzed, compiled⟩ := compiled?_some steps
  obtain ⟨text, found⟩ := (Bool.and_eq_true _ _).mp found
  obtain ⟨⟨di, name, ds⟩, lone, found⟩ := (Option.any_eq_true _ _).mp found
  obtain ⟨one, found⟩ := (Bool.and_eq_true _ _).mp found
  obtain ⟨d, rfl⟩ := List.length_eq_one_iff.mp (eq_of_beq one)
  rw [List.all_cons, List.all_nil, Bool.and_true] at found
  obtain ⟨unneeded, found⟩ := (Bool.and_eq_true _ _).mp found
  obtain ⟨⟨_, s'⟩, run, changed⟩ := (Option.any_eq_true _ _).mp found
  exact ⟨a, di, name, d, s', c, analyzed, scoped?_some lone, toOption_eq_some run,
    of_decide_eq_true changed, (Bool.not_eq_true' _).mp unneeded, compiled, eq_of_beq text⟩

end Emission

end TastyLang
