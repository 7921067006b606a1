import TastyLang.Emission.Unit
import TastyLang.Proofs.Emission.Statements
import TastyLang.Proofs.Reading.Places

/-!
# Where definitions are written

`Decl.placements` says where the definitions of functions and methods that a declaration gives to
the source belong, with all that is in them. Without attributes every declaration is shown in the
header, and the source gets the definitions, each on its line (`decls_show`).
-/

namespace TastyLang

open Text Emission

section

variable (info : Info)

/-- What the definition of a function places; `head` is its signature. -/
def FuncDecl.placements (head : Except EmitError String) (f : FuncDecl) :
    Except EmitError (List Placement) :=
  match f.body with
  | some b => do b.placements info (lineOf f.info) ((← head) ++ " ")
  | none => return []

/-- What an item outside of classes places in the source. An inline function stands in the
header. -/
def Item.placements : Item → Except EmitError (List Placement)
  | .func f =>
    if isInline f then return []
    else f.placements info (sourceHead info f (f.info.modifiers.has .static || isMain f))
  | .var _ | .enum _ | .inject _ _ => return []

/-- What a member of a class places in the source. -/
def Item.memberPlacements (owner : String) : Item → Except EmitError (List Placement)
  | .func f => f.placements info (signature info owner f (owner ++ "::") false)
  | .var _ | .enum _ | .inject _ _ => return []

/-- What a function that is added to a type places in the source. -/
def FuncDecl.extensionPlacements (f : FuncDecl) : Except EmitError (List Placement) :=
  match info.extensionFor? f with
  | some e => f.placements info (extensionSignature info e f false)
  | none => return []

/-- What things place one after the other. -/
def placementsOf {α : Type} (each : α → Except EmitError (List Placement)) :
    List α → Except EmitError (List Placement)
  | [] => return []
  | x :: xs => do return (← each x) ++ (← placementsOf each xs)

mutual

/-- What a declaration places in the source. -/
def Decl.placements : Decl → Except EmitError (List Placement)
  | .item i => i.placements info
  | .scope _ _ ds => Decl.placementsIn ds
  | .cls _ name _ items => placementsOf (Item.memberPlacements info name) items
  | .abstraction _ _ _ fs | .refurbish _ _ fs => placementsOf (FuncDecl.extensionPlacements info) fs
  | .includes _ _ _ _ | .assume _ _ _ | .attributeDef _ _ _ _ => return []

def Decl.placementsIn : List Decl → Except EmitError (List Placement)
  | [] => return []
  | d :: ds => do return (← d.placements) ++ (← Decl.placementsIn ds)

end

end

/-- The texts that a function injects. -/
def FuncDecl.injected (f : FuncDecl) : List String :=
  match f.body with
  | some b => b.injected
  | none => []

/-- No line of a text that the function injects starts a directive. -/
abbrev FuncDecl.Quiet (f : FuncDecl) : Prop := ∀ t ∈ f.injected, Undirected t

variable {f : FuncDecl}

theorem FuncDecl.Quiet.body (quiet : f.Quiet) {b : Block} (has : f.body = some b) :
    ∀ t ∈ b.injected, Undirected t := by
  rw [FuncDecl.Quiet, FuncDecl.injected, has] at quiet
  exact quiet

theorem FuncDecl.placements_none {info : Info} {head : Except EmitError String}
    (h : f.body = none) : f.placements info head = .ok [] := by
  unfold FuncDecl.placements
  rw [h]
  rfl

theorem Item.placements_func (info : Info) (f : FuncDecl) :
    Item.placements info (.func f) =
      if isInline f then .ok []
      else f.placements info (sourceHead info f (f.info.modifiers.has .static || isMain f)) := rfl

variable {p q : Pos}

theorem Decl.Lies.line {d : Decl} (h : d.Lies p q) : p.line ≤ lineOf d.info := by
  have start : ∀ {m : Pos} {i : DeclInfo}, p.Reaches m → i.Lies m → p.line ≤ lineOf i := by
    intro m i reaches own
    unfold lineOf
    rw [own.start]
    exact reaches.2
  cases h with
  | item i =>
    cases i with
    | var reaches own _ => exact start reaches own
    | func reaches f => exact start reaches f.info
    | enum reaches d => exact start reaches d.info
    | inject reaches own _ => exact start reaches own
  | includes reaches own _ => exact start reaches own
  | assume reaches own _ _ => exact start reaches own
  | scope reaches own _ _ _ _ _ => exact start reaches own
  | cls reaches own _ _ _ _ _ => exact start reaches own
  | abstraction reaches own _ _ _ _ => exact start reaches own
  | refurbish reaches own _ _ _ => exact start reaches own
  | attributeDef reaches own _ _ => exact start reaches own

theorem Decl.LieIn.line {ds : List Decl} (h : Decl.LieIn p ds q) :
    ∀ d ∈ ds, p.line ≤ lineOf d.info := by
  induction ds generalizing p with
  | nil => exact List.forall_mem_nil _
  | cons d ds ih =>
    cases h with
    | cons first rest =>
      refine List.forall_mem_cons.mpr ⟨first.line, fun d member => ?_⟩
      exact Int.le_trans first.reaches.2 (ih rest d member)

namespace Emission

variable {info : Info}

/-! ### Sheets -/

variable {u : Unit} {s s' : Sheets}

theorem on_header {e : Emitter Unit} (h : on .header e s = .ok (u, s')) : s'.source = s.source := by
  obtain ⟨_, _, got, h⟩ := bind_ok h
  cases got
  obtain ⟨_, _, -, h⟩ := bind_ok h
  cases h
  rfl

theorem on_source {e : Emitter Unit}
    (h : on .source e s = .ok (u, s')) : ∃ v, e s.source = .ok (v, s'.source) := by
  obtain ⟨_, _, got, h⟩ := bind_ok h
  cases got
  obtain ⟨r, _, run, h⟩ := bind_ok h
  cases h
  obtain ⟨run, -⟩ := lift_ok run
  exact ⟨r.1, run⟩

theorem prepend_bare {i : DeclInfo} (bare : i.generated.Bare) : prepend i = pure () := by
  unfold prepend
  rw [bare.prepend]
  rfl

theorem append_bare {i : DeclInfo} (bare : i.generated.Bare) : append i = pure () := by
  unfold append
  rw [bare.append]
  rfl

/-! ### Functions -/

variable {ps : List Placement} {pr pr' : Printer}

theorem definition_shows (spelt : info.Spelt OneLine) (lies : f.Lies p q) {b : Block}
    (body : f.body = some b) (quiet : ∀ t ∈ b.injected, Undirected t)
    {head : Except EmitError String}
    (fits : ∀ {s}, head = .ok s → breaks s ≤ Param.breaksIn f.params) (shows : pr.Shows ps)
    (above : pr.line ≤ p.line) (h : definition info (lineOf f.info) head b pr = .ok (u, pr')) :
    Adds pr' ps (f.placements info head) ∧ pr'.line ≤ q.line := by
  have start : lineOf f.info = p.line := by
    unfold lineOf
    rw [lies.info.start]
  obtain ⟨_, _, moved, h⟩ := bind_ok h
  obtain rfl := align_ok moved
  obtain ⟨t, _, lifted, h⟩ := bind_ok h
  obtain ⟨text, rfl⟩ := lift_ok lifted
  obtain ⟨_, _, written, h⟩ := bind_ok h
  obtain rfl := write_ok written
  obtain ⟨m, room, lies⟩ := lies.body b body
  rw [start] at h
  obtain ⟨shows, here⟩ := Printer.align_shows shows above
  have opened : Printer.Open (t ++ " ") := Printer.open_append t rfl
  have ahead : (pr.align p.line).line + breaks (t ++ " ") ≤ m.line := by
    have := fits text
    have := room.line
    rw [here, breaks_append, show breaks " " = 0 from rfl]
    omega
  obtain ⟨adds, ends⟩ := block_shows spelt lies quiet shows opened ahead h
  refine ⟨?_, ends ▸ endLine_le lies⟩
  unfold FuncDecl.placements
  rw [body]
  dsimp only
  rw [text, ok_bind, start, ← here]
  exact adds

theorem adds_nothing {pr : Printer} (shows : pr.Shows ps) :
    Adds pr ps (.ok []) := ⟨[], rfl, by rwa [List.append_nil]⟩

theorem sourceHead_breaks (spelt : info.Spelt OneLine) (lies : f.Lies p q) {defaults : Bool}
    {s : String} (h : sourceHead info f defaults = .ok s) : breaks s ≤ Param.breaksIn f.params := by
  unfold sourceHead at h
  rw [map_eq_pure_bind] at h
  obtain ⟨t, text, h⟩ := except_bind_ok h
  cases h
  rw [breaks_append, oneLine_lead, Nat.zero_add]
  exact signature_breaks spelt rfl rfl lies.name lies.symbol lies.params text

theorem func_shows (spelt : info.Spelt OneLine) (lies : f.Lies p q) (quiet : f.Quiet)
    (shows : s.source.Shows ps) (above : s.source.line ≤ p.line)
    (h : func info f true s = .ok (u, s')) :
    Adds s'.source ps (Item.placements info (.func f)) ∧ s'.source.line ≤ q.line := by
  have on_ := Int.le_trans above lies.room.reaches.2
  unfold func at h
  cases body : f.body with
  | none =>
    rw [body] at h
    rw [on_header h]
    refine ⟨?_, on_⟩
    rw [Item.placements_func, FuncDecl.placements_none body, ite_self]
    exact adds_nothing shows
  | some b =>
    rw [body] at h
    dsimp only at h
    rw [Bool.true_and] at h
    by_cases inlined : isInline f = true
    · rw [if_pos inlined] at h
      rw [on_header h, Item.placements_func, if_pos inlined]
      exact ⟨adds_nothing shows, on_⟩
    · rw [if_neg inlined] at h
      rw [Item.placements_func, if_neg inlined]
      by_cases shown : (true && !f.info.modifiers.has .static && !isMain f) = true
      · rw [if_pos shown] at h
        obtain ⟨_, s₁, declared, h⟩ := bind_ok h
        obtain ⟨_, run⟩ := on_source h
        rw [on_header declared] at run
        have defaults : (f.info.modifiers.has .static || isMain f) = false := by
          simpa using shown
        rw [defaults]
        exact definition_shows spelt lies body (quiet.body body)
          (sourceHead_breaks spelt lies) shows above run
      · rw [if_neg shown] at h
        have defaults : (f.info.modifiers.has .static || isMain f) = true := by
          revert shown
          cases f.info.modifiers.has .static <;> cases isMain f <;> decide
        obtain ⟨_, run⟩ := on_source h
        rw [prepend_bare lies.info.bare] at run
        obtain ⟨_, _, nothing, run⟩ := bind_ok run
        obtain ⟨-, rfl⟩ := pure_ok nothing
        obtain ⟨_, _, defined, run⟩ := bind_ok run
        rw [append_bare lies.info.bare] at run
        obtain ⟨-, same⟩ := pure_ok run
        rw [defaults, ← same]
        exact definition_shows spelt lies body (quiet.body body)
          (sourceHead_breaks spelt lies) shows above defined

theorem extension_shows (spelt : info.Spelt OneLine) (lies : f.Lies p q) (quiet : f.Quiet)
    (shows : s.source.Shows ps) (above : s.source.line ≤ p.line)
    (h : Emission.extension info true f s = .ok (u, s')) :
    Adds s'.source ps (f.extensionPlacements info) ∧ s'.source.line ≤ q.line := by
  have on_ := Int.le_trans above lies.room.reaches.2
  unfold Emission.extension at h
  unfold FuncDecl.extensionPlacements
  cases found : info.extensionFor? f with
  | none =>
    rw [found] at h
    obtain ⟨-, rfl⟩ := pure_ok h
    exact ⟨adds_nothing shows, on_⟩
  | some e =>
    rw [found] at h
    dsimp only at h ⊢
    rw [if_pos rfl] at h
    obtain ⟨_, s₁, declared, h⟩ := bind_ok h
    have same := on_header declared
    cases body : f.body with
    | none =>
      rw [body] at h
      obtain ⟨-, rfl⟩ := pure_ok h
      rw [same, FuncDecl.placements_none body]
      exact ⟨adds_nothing shows, on_⟩
    | some b =>
      rw [body] at h
      obtain ⟨_, run⟩ := on_source h
      rw [same] at run
      exact definition_shows spelt lies body (quiet.body body)
        (extensionSignature_breaks spelt (spelt.extensionFor? found) lies.params) shows above run

/-! ### Variables -/

theorem variable_shows (spelt : info.Spelt OneLine) {d : VarDecl} (lies : d.Lies p q)
    {name : String} (one : OneLine name) {ms : Modifiers} {withValue : Bool}
    (shows : pr.Shows ps) (above : pr.line ≤ p.line)
    (h : (do align (lineOf d.info); write ((← variableText info d name ms withValue) ++ ";") :
      Emitter Unit) pr = .ok (u, pr')) : pr'.Shows ps ∧ pr'.line ≤ q.line := by
  obtain ⟨_, _, moved, h⟩ := bind_ok h
  obtain rfl := align_ok moved
  obtain ⟨t, _, lifted, h⟩ := bind_ok h
  obtain ⟨text, rfl⟩ := lift_ok lifted
  obtain rfl := write_ok h
  have start : lineOf d.info = p.line := by
    unfold lineOf
    rw [lies.start]
  rw [start]
  obtain ⟨shows, here⟩ := Printer.align_shows shows above
  refine ⟨Printer.write_shows shows _, ?_⟩
  have := breaks_semicolon (variableText_breaks spelt lies.value one text)
  have := lies.room.line
  rw [Printer.write_line, here]
  omega

theorem global_shows (spelt : info.Spelt OneLine) {d : VarDecl} (own : d.info.Lies p)
    (lies : d.Lies p q) (shows : s.source.Shows ps) (above : s.source.line ≤ p.line)
    (h : global info d true s = .ok (u, s')) : s'.source.Shows ps ∧ s'.source.line ≤ q.line := by
  have on_ := Int.le_trans above lies.room.reaches.2
  unfold global at h
  dsimp only at h
  by_cases shown : (true && !d.info.modifiers.has .static && !(info.varType d).anonymous) = true
  · rw [if_pos shown] at h
    by_cases fixed : d.info.modifiers.has .constexpr = true
    · rw [if_pos fixed] at h
      rw [on_header h]
      exact ⟨shows, on_⟩
    · rw [if_neg fixed] at h
      obtain ⟨_, s₁, declared, h⟩ := bind_ok h
      have same := on_header declared
      by_cases elsewhere : d.info.modifiers.has .external = true
      · rw [if_pos elsewhere] at h
        obtain ⟨-, rfl⟩ := pure_ok h
        rw [same]
        exact ⟨shows, on_⟩
      · rw [if_neg elsewhere] at h
        obtain ⟨_, run⟩ := on_source h
        rw [same] at run
        exact variable_shows spelt lies lies.name shows above run
  · rw [if_neg shown] at h
    obtain ⟨_, run⟩ := on_source h
    unfold declared at run
    rw [prepend_bare own.bare, append_bare own.bare] at run
    exact variable_shows spelt lies lies.name shows above run

/-! ### Declarations -/

theorem shown_of_bare {g : Generated} (bare : g.Bare) : (true && !g.noHeader) = true := by
  rw [bare.shown]
  rfl

theorem lineOf_eq {p : Pos} {i : DeclInfo} (own : i.Lies p) : lineOf i = p.line :=
  congrArg Pos.line own.start

theorem item_shows (spelt : info.Spelt OneLine) {i : Item} (lies : i.Lies p q)
    (quiet : ∀ f ∈ i.funcs, f.Quiet) (shows : s.source.Shows ps)
    (above : s.source.line ≤ lineOf i.info) (h : item info true i s = .ok (u, s')) :
    Adds s'.source ps (i.placements info) ∧ s'.source.line ≤ q.line := by
  unfold item at h
  cases lies with
  | var _ own d =>
    dsimp only [Item.info] at h above
    rw [shown_of_bare own.bare] at h
    obtain ⟨shows, below⟩ := global_shows spelt own d shows (lineOf_eq own ▸ above) h
    exact ⟨adds_nothing shows, below⟩
  | func _ f =>
    dsimp only [Item.info] at h above
    rw [shown_of_bare f.info.bare] at h
    exact func_shows spelt f (quiet _ (List.mem_singleton_self _)) shows
      (lineOf_eq f.info ▸ above) h
  | enum _ d =>
    dsimp only [Item.info] at h above
    rw [shown_of_bare d.info.bare] at h
    rw [on_header h]
    exact ⟨adds_nothing shows, Int.le_trans (lineOf_eq d.info ▸ above) d.room.reaches.2⟩
  | inject _ own room =>
    dsimp only [Item.info] at h above
    rw [shown_of_bare own.bare] at h
    rw [on_header h]
    exact ⟨adds_nothing shows, Int.le_trans (lineOf_eq own ▸ above) room.reaches.2⟩

theorem memberDefinition_shows (spelt : info.Spelt OneLine) {owner : String} (one : OneLine owner)
    {i : Item} (lies : i.Lies p q) (quiet : ∀ f ∈ i.funcs, f.Quiet) (shows : pr.Shows ps)
    (above : pr.line ≤ p.line) (h : memberDefinition info owner i pr = .ok (u, pr')) :
    Adds pr' ps (i.memberPlacements info owner) ∧ pr'.line ≤ q.line := by
  have qualifier : OneLine (owner ++ "::") := by
    rw [OneLine, breaks_append, one]
    rfl
  have on_ := Int.le_trans above lies.reaches.2
  cases lies with
  | @func _ _ f reaches lies =>
    rw [memberDefinition] at h
    cases body : f.body with
    | none =>
      rw [body] at h
      obtain ⟨-, rfl⟩ := pure_ok h
      rw [Item.memberPlacements, FuncDecl.placements_none body]
      exact ⟨adds_nothing shows, on_⟩
    | some b =>
      rw [body] at h
      exact definition_shows spelt lies body ((quiet f (List.mem_singleton_self _)).body body)
        (signature_breaks spelt one qualifier lies.name lies.symbol lies.params) shows
        (Int.le_trans above reaches.2) h
  | @var _ _ d reaches own lies =>
    rw [memberDefinition] at h
    split at h
    · have name : OneLine (owner ++ "::" ++ d.name) := by
        rw [OneLine, breaks_append, qualifier, lies.name]
      obtain ⟨shows, below⟩ :=
        variable_shows spelt lies name shows (Int.le_trans above reaches.2) h
      exact ⟨adds_nothing shows, below⟩
    · obtain ⟨-, rfl⟩ := pure_ok h
      exact ⟨adds_nothing shows, on_⟩
  | enum _ _ =>
    obtain ⟨-, rfl⟩ := pure_ok h
    exact ⟨adds_nothing shows, on_⟩
  | inject _ _ _ =>
    obtain ⟨-, rfl⟩ := pure_ok h
    exact ⟨adds_nothing shows, on_⟩

theorem forM_shows {α : Type} {write : α → Writer Unit} {lies : Pos → α → Pos → Prop}
    {placed : α → Except EmitError (List Placement)} (good : α → Prop)
    (once : ∀ {p x q s s' ps u}, lies p x q → good x → s.source.Shows ps → s.source.line ≤ p.line →
      write x s = .ok (u, s') → Adds s'.source ps (placed x) ∧ s'.source.line ≤ q.line)
    {xs : List α} (chain : Chain lies p xs q) (each : ∀ x ∈ xs, good x)
    (shows : s.source.Shows ps)
    (above : s.source.line ≤ p.line) (h : xs.forM write s = .ok (u, s')) :
    Adds s'.source ps (placementsOf placed xs) ∧ s'.source.line ≤ q.line := by
  induction chain generalizing s ps with
  | nil =>
    obtain ⟨-, rfl⟩ := pure_ok h
    exact ⟨adds_nothing shows, above⟩
  | cons first rest ih =>
    obtain ⟨good, later⟩ := List.forall_mem_cons.mp each
    obtain ⟨_, s₁, one, h⟩ := bind_ok h
    obtain ⟨⟨qs, placed, shows⟩, below⟩ := once first good shows above one
    obtain ⟨⟨rs, more, shows⟩, below⟩ := ih later shows below h
    refine ⟨⟨qs ++ rs, ?_, ?_⟩, below⟩
    · rw [placementsOf, placed, more]
      rfl
    · rwa [← List.append_assoc]

theorem sheets_source {needed : Bool} {e : Emitter Unit}
    (h : (([Sheet.header] ++ if needed then [Sheet.source] else []).forM fun x => on x e) s =
      .ok (u, s')) : s'.source = s.source ∨ ∃ v, e s.source = .ok (v, s'.source) := by
  obtain ⟨_, s₁, first, h⟩ := bind_ok h
  have same := on_header first
  cases needed with
  | false =>
    obtain ⟨-, rfl⟩ := pure_ok h
    exact .inl same
  | true =>
    obtain ⟨_, _, second, h⟩ := bind_ok h
    obtain ⟨-, rfl⟩ := pure_ok h
    rw [← same]
    exact .inr (on_source second)

theorem openScope_shows {d : DeclInfo} {name : String} (one : OneLine name) (shows : pr.Shows ps)
    (above : pr.line ≤ lineOf d)
    (h : openScope d name pr = .ok (u, pr')) : pr'.Shows ps ∧ pr'.line ≤ lineOf d := by
  obtain ⟨_, _, moved, h⟩ := bind_ok h
  obtain rfl := align_ok moved
  obtain ⟨_, _, written, h⟩ := bind_ok h
  obtain rfl := write_ok written
  obtain rfl := modify_ok h
  obtain ⟨shows, here⟩ := Printer.align_shows shows above
  refine ⟨Printer.indent_shows (Printer.write_shows shows _), ?_⟩
  have flat : breaks (Ty.scopedName name) = 0 := Ty.oneLine_scopedName one
  rw [Printer.indent_line, Printer.write_line, here]
  simp +ground only [breaks_append, flat]
  omega

theorem closeScope_shows {d : DeclInfo} (shows : pr.Shows ps) (above : pr.line ≤ endLineOf d)
    (h : closeScope d pr = .ok (u, pr')) :
    pr'.Shows ps ∧ pr'.line ≤ endLineOf d := by
  obtain ⟨_, _, dedented, h⟩ := bind_ok h
  obtain rfl := modify_ok dedented
  obtain ⟨_, _, moved, h⟩ := bind_ok h
  obtain rfl := align_ok moved
  obtain rfl := write_ok h
  obtain ⟨shows, here⟩ := Printer.align_shows (Printer.dedent_shows shows) above
  refine ⟨Printer.write_shows shows _, ?_⟩
  rw [Printer.write_line, here, show breaks "\x7d" = 0 from rfl]
  omega

theorem extensions_show (spelt : info.Spelt OneLine) {fs : List FuncDecl}
    (lies : FuncDecl.LieIn p fs q) (quiet : ∀ f ∈ fs, f.Quiet) (shows : s.source.Shows ps)
    (above : s.source.line ≤ p.line) (h : fs.forM (Emission.extension info true) s = .ok (u, s')) :
    Adds s'.source ps (placementsOf (FuncDecl.extensionPlacements info) fs) ∧
      s'.source.line ≤ q.line := by
  obtain ⟨m, m', opens, chain, closes⟩ := lies
  have start := Int.le_trans above opens.reaches.2
  obtain ⟨adds, below⟩ := forM_shows FuncDecl.Quiet
    (fun ⟨_, reaches, f⟩ quiet shows above h =>
      extension_shows spelt f quiet shows (Int.le_trans above reaches.2) h)
    chain quiet shows start h
  exact ⟨adds, Int.le_trans below closes.reaches.2⟩

mutual

theorem decl_shows (spelt : info.Spelt OneLine) {d : Decl} {p q : Pos} {s s' : Sheets}
    {ps : List Placement} {u : Unit} : d.Lies p q → (∀ f ∈ d.funcs, f.Quiet) →
    s.source.Shows ps → s.source.line ≤ lineOf d.info → decl info true d s = .ok (u, s') →
    Adds s'.source ps (d.placements info) ∧ s'.source.line ≤ q.line
  | .item i, quiet, shows, above, h => by
    rw [decl] at h
    rw [Decl.placements]
    exact item_shows spelt i quiet shows above h
  | .includes _ own room, _, shows, above, h => by
    rw [decl] at h
    obtain ⟨-, rfl⟩ := pure_ok h
    exact ⟨adds_nothing shows, Int.le_trans (lineOf_eq own ▸ above) room.reaches.2⟩
  | .assume _ own room _, _, shows, above, h => by
    rw [decl] at h
    obtain ⟨-, rfl⟩ := pure_ok h
    exact ⟨adds_nothing shows, Int.le_trans (lineOf_eq own ▸ above) room.reaches.2⟩
  | .attributeDef _ own _ room, _, shows, above, h => by
    rw [decl] at h
    obtain ⟨-, rfl⟩ := pure_ok h
    exact ⟨adds_nothing shows, Int.le_trans (lineOf_eq own ▸ above) room.reaches.2⟩
  | @Decl.Lies.scope _ m _ _ _ _ _ _ _ own name opens inner stop closes, quiet, shows, above, h => by
    have line := lineOf_eq own
    rw [decl] at h
    rw [shown_of_bare own.bare] at h
    obtain ⟨_, s₁, opened, h⟩ := bind_ok h
    obtain ⟨_, s₂, body, closed⟩ := bind_ok h
    obtain ⟨shows, here⟩ : s₁.source.Shows ps ∧ s₁.source.line ≤ m.line := by
      rw [← line]
      rcases sheets_source opened with same | ⟨_, run⟩
      · rw [same]
        exact ⟨shows, above⟩
      · exact openScope_shows name shows above run
    have start := Int.le_trans here opens.reaches.2
    obtain ⟨⟨qs, placed, shows⟩, below⟩ := decls_show spelt inner quiet shows
      (fun d member => Int.le_trans start (inner.line d member)) body
    have below := below (Int.le_trans start inner.reaches.2)
    rw [← stop] at below
    have close := Int.le_trans (Int.le_of_eq stop) closes.reaches.2
    rw [Decl.placements]
    rcases sheets_source closed with same | ⟨_, run⟩
    · rw [same]
      exact ⟨⟨qs, placed, shows⟩, Int.le_trans below close⟩
    · obtain ⟨shows, below⟩ := closeScope_shows shows below run
      exact ⟨⟨qs, placed, shows⟩, Int.le_trans below close⟩
  | .cls _ own name _ opens items closes, quiet, shows, above, h => by
    rw [decl] at h
    rw [shown_of_bare own.bare] at h
    obtain ⟨_, s₁, shown, h⟩ := bind_ok h
    have same := on_header shown
    have start := Int.le_trans (lineOf_eq own ▸ above) opens.reaches.2
    rw [← same] at shows start
    obtain ⟨adds, below⟩ := forM_shows (fun i => ∀ f ∈ i.funcs, f.Quiet)
      (fun lies quiet shows above h => by
        obtain ⟨_, run⟩ := on_source h
        exact memberDefinition_shows spelt name lies quiet shows above run)
      items (fun i member f inside => quiet f (List.mem_flatMap.mpr ⟨i, member, inside⟩))
      shows start h
    exact ⟨adds, Int.le_trans below closes.reaches.2⟩
  | .abstraction _ own _ _ opens inner, quiet, shows, above, h => by
    rw [decl] at h
    rw [shown_of_bare own.bare] at h
    exact extensions_show spelt inner quiet shows
      (Int.le_trans (lineOf_eq own ▸ above) opens.reaches.2) h
  | .refurbish _ own _ opens inner, quiet, shows, above, h => by
    rw [decl] at h
    rw [shown_of_bare own.bare] at h
    exact extensions_show spelt inner quiet shows
      (Int.le_trans (lineOf_eq own ▸ above) opens.reaches.2) h

theorem decls_show (spelt : info.Spelt OneLine) {ds : List Decl} {p q : Pos} {s s' : Sheets}
    {ps : List Placement} {u : Unit} : Decl.LieIn p ds q → (∀ f ∈ Decl.funcsOf ds, f.Quiet) →
    s.source.Shows ps → (∀ d ∈ ds, s.source.line ≤ lineOf d.info) →
    decls info true ds s = .ok (u, s') →
    Adds s'.source ps (Decl.placementsIn info ds) ∧
      (s.source.line ≤ q.line → s'.source.line ≤ q.line)
  | .nil, _, shows, _, h => by
    rw [decls] at h
    obtain ⟨-, rfl⟩ := pure_ok h
    exact ⟨adds_nothing shows, id⟩
  | .cons first rest, quiet, shows, above, h => by
    rw [decls] at h
    obtain ⟨_, s₁, one, h⟩ := bind_ok h
    have start := fun f inside => quiet f (List.mem_append_left _ inside)
    have later := fun f inside => quiet f (List.mem_append_right _ inside)
    obtain ⟨⟨qs, placed, shows⟩, below⟩ :=
      decl_shows spelt first start shows (above _ List.mem_cons_self) one
    obtain ⟨⟨rs, more, shows⟩, ends⟩ := decls_show spelt rest later shows
      (fun d member => Int.le_trans below (rest.line d member)) h
    refine ⟨⟨qs ++ rs, ?_, ?_⟩, fun _ => ends (Int.le_trans below rest.reaches.2)⟩
    · rw [Decl.placementsIn, placed, more]
      rfl
    · rwa [← List.append_assoc]

end

end Emission

end TastyLang
