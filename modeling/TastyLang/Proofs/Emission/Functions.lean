import TastyLang.Proofs.Emission.Growth
import TastyLang.Proofs.Evaluation
import TastyLang.Proofs.Ownership.Naming

/-!
# Where functions are declared and defined

A function of a file stands outside of classes, in a class, or is added to a type. Each of the three
is written in its own way, to one of the sheets or to both (`decls_areIn`). `compile_defines_inline`
follows the functions whose declaration in the header says that they are inline: outside of classes
the header has their bodies, and in classes the source has them. A body holds the deletes of its sites in
their order (`FuncDecl.holds_sites`).
-/

namespace TastyLang

namespace Emission

open Printer Ownership

variable {info : Info}

/-! ### Functions -/

/-- What the braces of a block and all between them are written as. -/
def BodyText (info : Info) (b : Block) (cs : List Char) : Prop :=
  ∃ p u p', block info b p = .ok (u, p') ∧ p'.output = cs.reverse ++ p.output

/-! ### Deletes -/

/-- A text holds the words one after the other. -/
def Holds (words : List String) (cs : List Char) : Prop :=
  ∀ line, ∃ ps : List Placement, ps.map (·.text) = words ∧ LaidOut line cs ps

namespace Holds

variable {us ws : List String} {cs ds : List Char}

theorem nil (cs : List Char) : Holds [] cs := fun _ => ⟨[], rfl, .nil⟩

theorem append (h : Holds us cs) (h' : Holds ws ds) : Holds (us ++ ws) (cs ++ ds) := by
  intro line
  obtain ⟨ps, rfl, laid⟩ := h line
  obtain ⟨qs, rfl, laid'⟩ := h' (line + cs.count '\n')
  exact ⟨ps ++ qs, List.map_append, laid.append laid'⟩

theorem word (s : String) : Holds [s] s.toList := by
  intro line
  have laid : LaidOut line (s.toList ++ []) [⟨line, s⟩] := .here .nil
  exact ⟨_, rfl, List.append_nil s.toList ▸ laid⟩

theorem behind (h : Holds ws ds) (cs : List Char) : Holds ws (cs ++ ds) := (nil cs).append h

theorem before (h : Holds ws cs) (ds : List Char) : Holds ws (cs ++ ds) := by
  have both := h.append (nil ds)
  rwa [List.append_nil] at both

end Holds

theorem holds_releases (exit : Option Exit) :
    Holds ((deletesAt exit).map deleteText) (releases exit).toList := by
  cases exit with
  | none => exact .nil _
  | some e =>
    obtain ⟨os, hold⟩ := e
    change Holds (os.map deleteText) (String.join (os.map fun o => deleteText o ++ " ")).toList
    induction os with
    | nil => exact .nil _
    | cons o os ih =>
      rw [List.map_cons, List.map_cons, String.join_cons, String.toList_append, String.toList_append]
      exact ((Holds.word _).before _).append ih

/-- The deletes that are written at some sites. -/
def deletesOf (sites : List Site) : List String := sites.map fun s => deleteText s.owned

theorem deletesOf_exit (scopes : List Names) (exit : Option Exit) :
    deletesOf (exitSites scopes exit) = (deletesAt exit).map deleteText := List.map_map

theorem holds_returnText {value : Option Expr} {exit : Option Exit} {s : String}
    (h : returnText info value false exit = .ok s) :
    Holds ((deletesAt exit).map deleteText) s.toList := by
  have released := holds_releases exit
  unfold returnText at h
  split at h
  · cases h
    rw [String.toList_append]
    exact released.before _
  · obtain ⟨x, -, h⟩ := except_bind_ok h
    rw [if_neg Bool.false_ne_true] at h
    split at h <;> cases h <;> simp only [String.toList_append]
    · exact (((released.behind _).before _).before _).before _
    · exact ((released.before _).before _).before _

/-- An emitter adds a text that holds the words. -/
def Writes {α : Type} (words : List String) (e : Emitter α) : Prop :=
  ∀ ⦃p a p'⦄, e p = .ok (a, p') → ∃ new, p'.kept = new ++ p.kept ∧ Holds words new.reverse

/-- An emitter adds such a text to all that was written, blanks too, and keeps it. -/
def Encloses (words : List String) (e : Emitter Unit) : Prop :=
  ∀ ⦃p u p'⦄, e p = .ok (u, p') → p'.kept = p'.output ∧
    ∃ cs : List Char, p'.output = cs.reverse ++ p.output ∧ Holds words cs

theorem Encloses.writes {ws : List String} {e : Emitter Unit} (h : Encloses ws e) : Writes ws e := by
  intro p u p' run
  obtain ⟨last, cs, more, holds⟩ := h run
  refine ⟨cs.reverse ++ p.output.takeWhile isBlank, ?_, ?_⟩
  · rw [last, more, List.append_assoc, kept, List.takeWhile_append_dropWhile]
  · rw [List.reverse_append, List.reverse_reverse]
    exact holds.behind _

namespace Writes

variable {α β : Type} {us ws : List String} {e : Emitter α} {f : α → Emitter β}

theorem of_grows (h : Grows e) : Writes [] e := by
  intro p a p' run
  obtain ⟨new, same⟩ := (h run).kept
  exact ⟨new, same.symm, .nil _⟩

theorem bind (first : Writes us e) (rest : ∀ a, Writes ws (f a)) : Writes (us ++ ws) (e >>= f) := by
  intro p b p' run
  obtain ⟨a, q, ran, run⟩ := bind_ok run
  obtain ⟨new, kept, holds⟩ := first ran
  obtain ⟨new', kept', holds'⟩ := rest a run
  refine ⟨new' ++ new, by rw [kept', kept, List.append_assoc], ?_⟩
  rw [List.reverse_append]
  exact holds.append holds'

theorem behind (first : Grows e) (rest : ∀ a, Writes ws (f a)) : Writes ws (e >>= f) :=
  (of_grows first).bind rest

theorem before (first : Writes ws e) (rest : ∀ a, Grows (f a)) : Writes ws (e >>= f) := by
  have both := first.bind fun a => of_grows (rest a)
  rwa [List.append_nil] at both

end Writes

theorem write_encloses {ws : List String} {s : String} (solid : Solid s) (holds : Holds ws s.toList) :
    Encloses ws (write s) := by
  rintro p _ _ ⟨⟩
  obtain ⟨n, output⟩ := write_output p s
  refine ⟨kept_write_solid p solid, (List.replicate n '\t').reverse ++ s.toList, ?_, holds.behind _⟩
  rw [output, List.reverse_append, List.reverse_reverse]

theorem deletes_write (line : Int) (os : List Owned) :
    Writes (os.map deleteText) (os.forM fun o => do write (deleteText o); align line) := by
  induction os with
  | nil => exact .of_grows .pure
  | cons o os ih =>
    have first : Writes [deleteText o] (do write (deleteText o); align line) :=
      (write_encloses (solid_semicolon.append _) (.word _)).writes.before fun _ => align_grows
    exact first.bind fun _ => ih

theorem exit_writes (scopes : List Names) (exit : Option Exit) {word : String} (solid : Solid word) :
    Writes (deletesOf (exitSites scopes exit)) (write (releases exit ++ word)) := by
  refine (write_encloses (solid.append _) ?_).writes
  rw [deletesOf_exit, String.toList_append]
  exact (holds_releases exit).before _

mutual

theorem stmt_writes (scopes : List Names) : (s : Stmt) →
    Writes (deletesOf (s.sites scopes)) (stmt info s)
  | .block b => (block_encloses scopes b).writes
  | .expr _ _ | .decl _ _ => .of_grows written_grows
  | .branch _ _ _ yes none =>
    .behind .lift fun _ => .behind write_grows fun _ =>
      (block_encloses scopes yes).writes.before fun _ => .pure
  | .branch _ _ _ yes (some no) => by
    rw [Stmt.sites, deletesOf, List.map_append]
    exact .behind .lift fun _ => .behind write_grows fun _ =>
      (block_encloses scopes yes).writes.bind fun _ => .behind write_grows fun _ => stmt_writes scopes no
  | .loop _ _ _ body =>
    .behind .lift fun _ => .behind write_grows fun _ => (block_encloses scopes body).writes
  | .count _ _ _ _ _ _ body | .each _ _ _ _ body =>
    .behind .lift fun _ => .behind write_grows fun _ => (block_encloses _ body).writes
  | .ret _ value _ true exit => .of_grows written_grows
  | .ret _ value _ false exit => by
    intro p u p' run
    obtain ⟨s, _, lifted, run⟩ := bind_ok run
    obtain ⟨text, rfl⟩ := lift_ok lifted
    refine (write_encloses (solid_returnText text) ?_).writes run
    rw [Stmt.sites, if_neg Bool.false_ne_true, deletesOf_exit]
    exact holds_returnText text
  | .brk _ exit => exit_writes scopes exit ⟨"break".toList, ';', rfl, rfl⟩
  | .cont _ exit => exit_writes scopes exit ⟨"continue".toList, ';', rfl, rfl⟩
  | .inject _ _ => .of_grows (injectFrom_grows _ _)

theorem block_encloses (scopes : List Names) : (b : Block) →
    Encloses (deletesOf (b.sites scopes)) (block info b)
  | .mk span ss owned, p, u, p', run => by
    -- the opening brace is kept with all in front of it, and so is the closing one
    obtain ⟨_, _, opened, run⟩ := bind_ok run
    cases opened
    have closes : Leaves (write "\x7d") fun p => p.kept = p.output := by
      rintro p _ _ ⟨⟩
      exact kept_write_solid p solid_closing
    have last : p'.kept = p'.output :=
      Leaves.bind (fun _ => .bind fun _ => .bind fun _ => .bind fun _ => .bind fun _ => closes) run
    have deletes : Writes (owned.map deleteText) (do
        align span.stop.line
        owned.forM fun o => do
          write (deleteText o)
          align span.stop.line
        modify (·.dedent)
        write "\x7d") :=
      .behind align_grows fun _ => (deletes_write span.stop.line owned).before fun _ =>
        dedent_grows.bind fun _ => write_grows
    obtain ⟨new, more, holds⟩ :=
      Writes.behind indent_grows (fun _ => stmts_write scopes deletes [] ss) run
    obtain ⟨n, output⟩ := write_output p "\x7b"
    rw [last, kept_write_solid p solid_opening, output, ← List.append_assoc] at more
    refine ⟨last, _, by rw [List.reverse_reverse]; exact more, ?_⟩
    rw [List.reverse_append]
    exact holds.behind _

theorem stmts_write (scopes : List Names) {owned : List Owned} {rest : Emitter Unit}
    (later : Writes (owned.map deleteText) rest) : (here : Names) → (ss : List Stmt) →
    Writes (deletesOf (Stmt.sitesIn owned here scopes ss)) (stmts info ss >>= fun _ => rest)
  | here, [] => by
    rw [Stmt.sitesIn, deletesOf, List.map_map]
    exact .behind .pure fun _ => later
  | here, s :: ss => by
    rw [Stmt.sitesIn, deletesOf, List.map_append, stmts]
    simp only [bind_assoc]
    exact .behind align_grows fun _ => (stmt_writes _ s).bind fun _ => stmts_write scopes later _ ss

end

/-- What the body of a function is written as holds the deletes of the function's sites, in their order. -/
theorem FuncDecl.holds_sites {f : FuncDecl} {b : Block} {cs : List Char} (body : f.body = some b)
    (text : BodyText info b cs) : Holds (deletesOf f.sites) cs := by
  obtain ⟨p, u, p', run, more⟩ := text
  unfold FuncDecl.sites
  rw [body]
  obtain ⟨-, ds, more', holds⟩ := block_encloses _ b run
  rw [more, List.append_cancel_right_eq, List.reverse_inj] at more'
  exact more' ▸ holds

/-! ### Parts of functions -/

/-- A printer keeps a declaration. -/
def Declares (text : Except EmitError String) (p : Printer) : Prop :=
  ∃ t, text = .ok t ∧ p.Has (t ++ ";").toList

/-- A printer keeps a head with a body behind it. -/
def Defines (info : Info) (head : Except EmitError String) (b : Block) (p : Printer) : Prop :=
  ∃ t cs, head = .ok t ∧ BodyText info b cs ∧ p.Has ((t ++ " ").toList ++ cs)

theorem declares_lasting {text : Except EmitError String} : Lasting (Declares text) := by
  rintro p p' more ⟨t, given, has⟩
  exact ⟨t, given, has.mono more⟩

theorem defines_lasting {head : Except EmitError String} {b : Block} :
    Lasting (Defines info head b) := by
  rintro p p' more ⟨t, cs, given, body, has⟩
  exact ⟨t, cs, given, body, has.mono more⟩

theorem written_leaves {text : Except EmitError String} :
    Leaves (do write ((← text) ++ ";") : Emitter Unit) (Declares text) := by
  intro p u p' run
  obtain ⟨t, _, lifted, run⟩ := bind_ok run
  obtain ⟨given, -⟩ := lift_ok lifted
  cases run
  exact ⟨t, given, has_write _ (solid_semicolon.append t)⟩

theorem declared_leaves {d : DeclInfo} {text : Except EmitError String} :
    Leaves (declared d text) (Declares text) := by
  have split : declared d text = (do
      prepend d
      align (lineOf d)
      (do write ((← text) ++ ";"))
      append d) := by
    unfold declared
    simp only [bind_assoc]
  rw [split]
  exact .bind fun _ => .bind fun _ => written_leaves.before declares_lasting fun _ => append_grows

theorem definition_leaves {line : Int} {head : Except EmitError String} {b : Block} :
    Leaves (definition info line head b) (Defines info head b) := by
  refine .bind fun _ => ?_
  intro p u p' run
  obtain ⟨t, _, lifted, run⟩ := bind_ok run
  obtain ⟨given, -⟩ := lift_ok lifted
  obtain ⟨_, p₁, wrote, run⟩ := bind_ok run
  cases wrote
  obtain ⟨whole, cs, more, -⟩ := block_encloses [] _ run
  refine ⟨t, cs, given, ⟨_, _, _, run, more⟩, ?_⟩
  obtain ⟨n, output⟩ := write_output _ (t ++ " ")
  rw [Has, whole, more, output, List.reverse_append, List.append_assoc, ← List.append_assoc]
  exact (List.prefix_append _ _).isInfix

/-- Where a function of a file stands: outside of classes, in a class, or among those that are added
to a type. -/
inductive Home where
  | free
  | member (owner : String)
  | added (e : Extension)

/-- A function of a file, and whether the header shows it. -/
structure Routine where
  home : Home
  shown : Bool
  func : FuncDecl

namespace Routine

/-- How the header declares the function. -/
def prototype (info : Info) (e : Routine) : Except EmitError String :=
  match e.home with
  | .free => (e.func.info.modifiers.lead ++ ·) <$> signature info "" e.func "" true
  | .member owner => (e.func.info.modifiers.lead ++ ·) <$> signature info owner e.func "" true
  | .added x => extensionSignature info x e.func true

/-- Whether the header declares the function apart from its body. -/
def isDeclared (e : Routine) : Bool :=
  match e.home with
  | .free =>
    e.shown && (e.func.body.isNone || !isInline e.func &&
      !e.func.info.modifiers.has .static && !isMain e.func)
  | .member _ | .added _ => e.shown

/-- Where the body goes. -/
def sheet (e : Routine) : Sheet :=
  match e.home with
  | .free => sheetOf (e.shown && isInline e.func)
  | .member _ | .added _ => .source

/-- What stands in front of the body. -/
def head (info : Info) (e : Routine) : Except EmitError String :=
  match e.home with
  | .free =>
    if e.shown && isInline e.func then e.prototype info
    else sourceHead info e.func !(e.shown && !e.func.info.modifiers.has .static && !isMain e.func)
  | .member owner => signature info owner e.func (owner ++ "::") false
  | .added x => extensionSignature info x e.func (!e.shown)

/-- Some parts have the declaration and the body of a function. -/
structure IsIn (info : Info) (e : Routine) (ps : List Part) : Prop where
  declaration : e.isDeclared = true → ∃ p ∈ ps, p.sheet = .header ∧
    Leaves p.text (Declares (e.prototype info))
  body : ∀ b, e.func.body = some b → ∃ p ∈ ps, p.sheet = e.sheet ∧
    Leaves p.text (Defines info (e.head info) b)

theorem IsIn.mono {e : Routine} {ps qs : List Part} (h : e.IsIn info ps) (more : ps ⊆ qs) :
    e.IsIn info qs where
  declaration declared := by
    obtain ⟨p, member, found⟩ := h.declaration declared
    exact ⟨p, more member, found⟩
  body b has := by
    obtain ⟨p, member, found⟩ := h.body b has
    exact ⟨p, more member, found⟩

end Routine

end Emission

open Emission

namespace Item

/-- The function that an item outside of classes is. -/
def routines (visible : Bool) : Item → List Routine
  | .func f => [⟨.free, visible && !f.info.generated.noHeader, f⟩]
  | .var _ | .enum _ | .inject _ _ => []

/-- The function that a member of a class is. -/
def memberRoutines (owner : String) (visible : Bool) : Item → List Routine
  | .func f => [⟨.member owner, visible, f⟩]
  | .var _ | .enum _ | .inject _ _ => []

end Item

/-- A function that is added to a type. -/
def FuncDecl.addedRoutines (info : Info) (visible : Bool) (f : FuncDecl) : List Routine :=
  match info.extensionFor? f with
  | none => []
  | some x => [⟨.added x, visible, f⟩]

mutual

/-- The functions of a declaration, in namespaces of any depth. -/
def Decl.routines (info : Info) (visible : Bool) (d : Decl) : List Routine :=
  match d with
  | .item i => i.routines visible
  | .scope di _ ds => Decl.routinesOf info (visible && !di.generated.noHeader) ds
  | .cls di name _ items =>
    items.flatMap (Item.memberRoutines name (visible && !di.generated.noHeader))
  | .abstraction di _ _ fs | .refurbish di _ fs =>
    fs.flatMap (FuncDecl.addedRoutines info (visible && !di.generated.noHeader))
  | .includes _ _ _ _ | .assume _ _ _ | .attributeDef _ _ _ _ => []
termination_by structural d

def Decl.routinesOf (info : Info) (visible : Bool) : List Decl → List Routine
  | [] => []
  | d :: ds => Decl.routines info visible d ++ Decl.routinesOf info visible ds
termination_by structural ds => ds

end

namespace Emission

variable {info : Info} {c : Include.Context}

theorem func_isIn {f : FuncDecl} {shown : Bool} :
    Routine.IsIn info ⟨.free, shown, f⟩ (funcParts c info f shown) := by
  have around {head : Except EmitError String} {b : Block} : Leaves (do
      prepend f.info
      definition info (lineOf f.info) head b
      append f.info) (Defines info head b) :=
    .bind fun _ => definition_leaves.before defines_lasting fun _ => append_grows
  unfold funcParts
  dsimp only
  split
  · next none_ =>
    refine ⟨fun declared => ⟨_, List.mem_singleton_self _, ?_, declared_leaves⟩, fun b has => ?_⟩
    · have shown : shown = true := by
        rw [Routine.isDeclared, Bool.and_eq_true] at declared
        exact declared.1
      rw [shown]
      rfl
    · rw [none_] at has
      cases has
  · next b body =>
    have there : f.body.isNone = false := by rw [body]; rfl
    split
    · next inline =>
      refine ⟨fun declared => ?_, fun b' has => ?_⟩
      · simp_all [Routine.isDeclared]
      · obtain rfl : b = b' := Option.some.inj (body.symm.trans has)
        refine ⟨_, List.mem_singleton_self _, ?_, ?_⟩
        · exact (congrArg sheetOf inline).symm
        · rw [Routine.head, if_pos inline]
          exact around
    · next inline =>
      have source : Routine.sheet ⟨.free, shown, f⟩ = .source := by
        rw [Routine.sheet, eq_false_of_ne_true inline]
        rfl
      split
      · next apart =>
        refine ⟨fun _ => ⟨_, List.mem_cons_self, rfl, declared_leaves⟩, fun b' has => ?_⟩
        obtain rfl : b = b' := Option.some.inj (body.symm.trans has)
        refine ⟨_, List.mem_cons_of_mem _ (List.mem_singleton_self _), source.symm, ?_⟩
        rw [Routine.head, if_neg inline, apart]
        exact definition_leaves
      · next apart =>
        refine ⟨fun declared => ?_, fun b' has => ?_⟩
        · simp_all [Routine.isDeclared]
        · obtain rfl : b = b' := Option.some.inj (body.symm.trans has)
          refine ⟨_, List.mem_singleton_self _, source.symm, ?_⟩
          rw [Routine.head, if_neg inline, eq_false_of_ne_true apart]
          exact around

theorem member_isIn {d : DeclInfo} {name : String} {bases : List TypeExpr} {items : List Item}
    {shown : Bool} {f : FuncDecl} (member : .func f ∈ items) :
    Routine.IsIn info ⟨.member name, shown, f⟩ (classParts c info d name bases items shown) where
  declaration declared := by
    have declared : shown = true := declared
    subst declared
    refine ⟨_, List.mem_cons_self, rfl, ?_⟩
    have here : Leaves (classMember info name (.func f))
        (Declares (Routine.prototype info ⟨.member name, true, f⟩)) := by
      have same : Routine.prototype info ⟨.member name, true, f⟩ = (do
          return f.info.modifiers.lead ++ (← signature info name f "" true)) :=
        map_eq_pure_bind _ _
      rw [same]
      exact declared_leaves
    refine .bind fun _ => .bind fun _ => .bind fun _ => .bind fun _ => .bind fun _ => .bind fun _ =>
      .bind fun _ => .bind fun _ => .bind fun _ => Leaves.before
        (.forM member here declares_lasting classMember_grows) declares_lasting fun _ => ?_
    exact dedent_grows.bind fun _ => align_grows.bind fun _ => write_grows
  body b has := by
    refine ⟨_, List.mem_cons_of_mem _ (List.mem_map.mpr ⟨_, member, rfl⟩), rfl, ?_⟩
    have text : memberDefinition info name (.func f) =
        definition info (lineOf f.info) (signature info name f (name ++ "::") false) b := by
      have body : f.body = some b := has
      rw [memberDefinition, body]
    dsimp only
    rw [text]
    exact definition_leaves

theorem added_isIn {shown : Bool} {f : FuncDecl} {x : Extension}
    (found : info.extensionFor? f = some x) :
    Routine.IsIn info ⟨.added x, shown, f⟩ (extensionParts c info shown f) := by
  unfold extensionParts
  rw [found]
  refine ⟨fun declared => ?_, fun b has => ?_⟩
  · have declared : shown = true := declared
    subst declared
    exact ⟨_, List.mem_append_left _ (List.mem_singleton_self _), rfl, .bind fun _ => written_leaves⟩
  · have body : f.body = some b := has
    rw [body]
    exact ⟨_, List.mem_append_right _ (List.mem_singleton_self _), rfl, definition_leaves⟩

theorem extensions_areIn {shown : Bool} {fs : List FuncDecl} {e : Routine}
    (member : e ∈ fs.flatMap (FuncDecl.addedRoutines info shown)) :
    e.IsIn info (fs.flatMap (extensionParts c info shown)) := by
  obtain ⟨f, function, member⟩ := List.mem_flatMap.mp member
  unfold FuncDecl.addedRoutines at member
  split at member
  · cases member
  · next x found =>
    obtain rfl := List.mem_singleton.mp member
    exact (added_isIn found).mono fun p inside => List.mem_flatMap.mpr ⟨f, function, inside⟩

mutual

theorem decl_isIn : ∀ (visible : Bool) (d : Decl) {e : Routine}, e ∈ d.routines info visible →
    e.IsIn info (parts c info visible d)
  | visible, .item i, e, member => by
    rw [Decl.routines] at member
    rw [parts]
    cases i with
    | func f =>
      obtain rfl := List.mem_singleton.mp member
      exact func_isIn
    | var | enum | inject => cases member
  | visible, .scope di name ds, e, member => by
    rw [Decl.routines] at member
    rw [parts]
    refine (decls_areIn _ ds member).mono fun p inside => ?_
    exact List.mem_append_left _ (List.mem_append_right _ inside)
  | visible, .cls di name bases items, e, member => by
    rw [Decl.routines] at member
    rw [parts]
    obtain ⟨i, inside, member⟩ := List.mem_flatMap.mp member
    cases i with
    | func f =>
      obtain rfl := List.mem_singleton.mp member
      exact member_isIn inside
    | var | enum | inject => cases member
  | visible, .abstraction di name target fs, e, member
  | visible, .refurbish di target fs, e, member => by
    rw [Decl.routines] at member
    rw [parts]
    exact extensions_areIn member
  | visible, .includes _ _ _ _, e, member | visible, .assume _ _ _, e, member
  | visible, .attributeDef _ _ _ _, e, member => by
    rw [Decl.routines] at member
    cases member

theorem decls_areIn : ∀ (visible : Bool) (ds : List Decl) {e : Routine},
    e ∈ Decl.routinesOf info visible ds → e.IsIn info (partsOf c info visible ds)
  | visible, [], e, member => by
    rw [Decl.routinesOf] at member
    cases member
  | visible, d :: ds, e, member => by
    rw [Decl.routinesOf, List.mem_append] at member
    rw [partsOf]
    rcases member with member | member
    · exact (decl_isIn visible d member).mono (List.subset_append_left _ _)
    · exact (decls_areIn visible ds member).mono (List.subset_append_right _ _)

end

end Emission

/-! ### Compiled files -/

/-- The text of a sheet. -/
def CppUnit.text (u : CppUnit) : Sheet → String
  | .header => u.header
  | .source => u.source

def Analysis.routines (a : Analysis) : List Routine := Decl.routinesOf a.info true a.file.decls

/-- A text has the declaration with a semicolon behind it. -/
def Emission.DeclaredIn (text : String) (declaration : Except EmitError String) : Prop :=
  ∃ t, declaration = .ok t ∧ (t ++ ";").toList <:+: text.toList

/-- A text has the body of a function with the head in front of it. -/
def Emission.DefinedIn (info : Info) (text : String) (head : Except EmitError String) (b : Block) :
    Prop :=
  ∃ t cs, head = .ok t ∧ BodyText info b cs ∧ (t ++ " ").toList ++ cs <:+: text.toList

theorem CppUnit.leaves_of_emit {file : File} {table : Table} {info : Info} {o : EmitOptions}
    {u : CppUnit} (h : file.emit table (some info) o = .ok u) {sheet : Sheet} {P : Printer → Prop}
    (part : ∀ c, ∃ p ∈ partsOf c info true file.decls, p.sheet = sheet ∧ Leaves p.text P)
    (lasting : Lasting P) : ∃ q : Printer, P q ∧ q.text = u.text sheet := by
  obtain ⟨eo, sheets, run, rfl⟩ := File.emit_ok h
  rw [unit_eq_assembled (c := ⟨table, some info, eo.headerExt⟩)] at run
  obtain ⟨⟨_, s₁⟩, -, run⟩ := except_bind_ok run
  obtain ⟨⟨_, s₂⟩, wrote, ends⟩ := except_bind_ok run
  have last : s₂.Grow sheets := by
    dsimp only at ends
    split at ends
    · cases ends
      exact fun _ => .refl _
    · exact on_grow (.modify (Printer.extends_directive · _)) ends
  obtain ⟨p, inside, rfl, leaves⟩ := part ⟨table, some info, eo.headerExt⟩
  have kept := emitAll_leaves (partsOf_grow true file.decls) inside leaves lasting wrote
  refine ⟨sheets.at p.sheet, lasting (last p.sheet).kept kept, ?_⟩
  cases p.sheet <;> rfl

theorem CppUnit.text_of_emit {file : File} {table : Table} {info : Info} {o : EmitOptions}
    {u : CppUnit} (h : file.emit table (some info) o = .ok u) {e : Routine}
    (member : e ∈ Decl.routinesOf info true file.decls) :
    (e.isDeclared = true → DeclaredIn u.header (e.prototype info)) ∧
      ∀ b, e.func.body = some b → DefinedIn info (u.text e.sheet) (e.head info) b := by
  refine ⟨fun declared => ?_, fun b has => ?_⟩
  · obtain ⟨q, ⟨t, given, kept⟩, text⟩ := leaves_of_emit h
      (fun c => (decls_areIn (c := c) true _ member).declaration declared) declares_lasting
    have found := kept.text
    rw [text] at found
    exact ⟨t, given, found⟩
  · obtain ⟨q, ⟨t, cs, given, body, kept⟩, text⟩ := leaves_of_emit h
      (fun c => (decls_areIn (c := c) true _ member).body b has) defines_lasting
    exact ⟨t, cs, given, body, text ▸ kept.text⟩

/-- A text names the specifier `inline` or `constexpr`. -/
def Emission.Specifies (t : String) : Prop :=
  ∃ m ∈ [Modifier.inline, .constexpr], (m.word ++ " ").toList <:+: t.toList

theorem Modifiers.word_in_lead {ms : Modifiers} {m : Modifier} (written : m ∈ writtenOrder)
    (has : ms.has m = true) : (m.word ++ " ").toList <:+: ms.lead.toList := by
  unfold lead
  rw [String.toList_join]
  exact List.infix_of_mem_flatten
    (List.mem_map_of_mem (List.mem_map_of_mem (List.mem_filter.mpr ⟨written, has⟩)))

theorem Emission.specifies_lead {f : FuncDecl} (inline : isInline f = true) (t : String) :
    Specifies (f.info.modifiers.lead ++ t) := by
  have lead {m : Modifier} (written : m ∈ Modifiers.writtenOrder)
      (has : f.info.modifiers.has m = true) :
      (m.word ++ " ").toList <:+: (f.info.modifiers.lead ++ t).toList := by
    refine (Modifiers.word_in_lead written has).trans ?_
    rw [String.toList_append]
    exact (List.prefix_append _ _).isInfix
  rcases (Bool.or_eq_true _ _).mp inline with has | has
  · exact ⟨.inline, by decide, lead (by decide) has⟩
  · exact ⟨.constexpr, by decide, lead (by decide) has⟩

section

variable {table : Table} {o : CompileOptions} {name src : String} {a : Analysis} {c : Compiled}

/-- Every function that the header shows and that is marked `inline` or `constexpr` has its body in
the header if it stands outside of classes. A function of a class has the specifier in the header,
too, but its body in the source; one that is added to a type has no specifier. -/
theorem compile_defines_inline (analysis : analyze table name src = .ok a)
    (compiled : compile table o name src = .ok c) {e : Routine} (member : e ∈ a.routines)
    (shown : e.shown = true) (marked : isInline e.func = true) {b : Block}
    (body : e.func.body = some b) :
    match e.home with
    | .free => ∃ t cs, e.prototype a.info = .ok t ∧ Specifies t ∧ BodyText a.info b cs ∧
        (t ++ " ").toList ++ cs <:+: c.unit.header.toList
    | .member owner => DeclaredIn c.unit.header (e.prototype a.info) ∧
        (∀ t, e.prototype a.info = .ok t → Specifies t) ∧
        DefinedIn a.info c.unit.source (signature a.info owner e.func (owner ++ "::") false) b
    | .added x => DeclaredIn c.unit.header (extensionSignature a.info x e.func true) ∧
        DefinedIn a.info c.unit.source (extensionSignature a.info x e.func false) b := by
  obtain ⟨a', again, compiled⟩ := except_bind_ok compiled
  obtain rfl := Except.ok.inj (again.symm.trans analysis)
  obtain ⟨unit, emitted, compiled⟩ := except_bind_ok compiled
  cases compiled
  obtain ⟨declared, defined⟩ := CppUnit.text_of_emit (mapError_ok emitted) member
  have defined := defined b body
  obtain ⟨home, shown', f⟩ := e
  obtain rfl : shown' = true := shown
  have specified {owner : String} {t : String}
      (given : (f.info.modifiers.lead ++ ·) <$> signature a'.info owner f "" true = .ok t) :
      Specifies t := by
    rw [map_eq_pure_bind] at given
    obtain ⟨s, -, given⟩ := except_bind_ok given
    cases given
    exact specifies_lead marked s
  cases home with
  | free =>
    have inline : (true && isInline f) = true := marked
    rw [Routine.sheet, Routine.head] at defined
    dsimp only at defined
    rw [if_pos inline, inline] at defined
    obtain ⟨t, cs, given, text, found⟩ := defined
    exact ⟨t, cs, given, specified given, text, found⟩
  | member owner => exact ⟨declared rfl, fun t given => specified given, defined⟩
  | added x => exact ⟨declared rfl, defined⟩

end

/-- A function of a class and one outside of classes, in a namespace. -/
def markedText : String := "namespace N {
  class A {
    inline fn f() {}
  }
  constexpr fn g() {}
}
"

def Emission.Routine.isMarked (e : Routine) : Bool :=
  e.shown && isInline e.func && e.func.body.isSome

theorem compile_defines_inline_in_namespace :
    ∃ a c, analyze Table.default "main.tasty" markedText = .ok a ∧
      compile Table.default {} "main.tasty" markedText = .ok c ∧
      (∃ e ∈ a.routines, e.home = .free ∧ ∃ b t cs, e.func.body = some b ∧
        e.prototype a.info = .ok t ∧ Specifies t ∧ BodyText a.info b cs ∧
        (t ++ " ").toList ++ cs <:+: c.unit.header.toList) ∧
      ∃ e ∈ a.routines, ∃ owner b, e.home = .member owner ∧ e.func.body = some b ∧
        DeclaredIn c.unit.header (e.prototype a.info) ∧
        (∀ t, e.prototype a.info = .ok t → Specifies t) ∧
        DefinedIn a.info c.unit.source (signature a.info owner e.func (owner ++ "::") false) b := by
  have found : (compiled? Table.default {} "main.tasty" markedText).any (fun r =>
      (r.1.routines.any fun e => e.isMarked && match e.home with | .free => true | _ => false) &&
        r.1.routines.any fun e => e.isMarked && match e.home with | .member _ => true | _ => false) =
      true := by
    rw [compiled?, compile, analyze, markedText, File.read_ofList]
    decide +kernel
  obtain ⟨⟨a, c⟩, steps, found⟩ := (Option.any_eq_true _ _).mp found
  obtain ⟨analysis, compiled⟩ := compiled?_some steps
  simp only [Bool.and_eq_true, List.any_eq_true, Routine.isMarked, Option.isSome_iff_exists] at found
  obtain ⟨⟨e, free, ⟨⟨shown, marked⟩, b, body⟩, home⟩, e', inside, ⟨⟨shown', marked'⟩, b', body'⟩,
    home'⟩ := found
  refine ⟨a, c, analysis, compiled, ⟨e, free, ?_⟩, e', inside, ?_⟩
  · have defines := compile_defines_inline analysis compiled free shown marked body
    cases same : e.home with
    | free =>
      rw [same] at defines
      obtain ⟨t, cs, given, specifies, text, placed⟩ := defines
      exact ⟨rfl, b, t, cs, body, given, specifies, text, placed⟩
    | member | added => simp [same] at home
  · have defines := compile_defines_inline analysis compiled inside shown' marked' body'
    cases same : e'.home with
    | member owner =>
      rw [same] at defines
      exact ⟨owner, b', rfl, body', defines⟩
    | free | added => simp [same] at home'

def methodText : String := "class A {
  inline fn f() {}
}
"

/-- The header declares the function of the class to be inline and has no body of it. -/
theorem inline_method_leaves_header :
    ∃ c, compile Table.default { pragmaOnce := true } "main.tasty" methodText = .ok c ∧
      Text.cut '\n' c.unit.header = ["#pragma once", "class A \x7b", "public:",
        "\tinline void f();", "\x7d;", ""] ∧
      Text.cut '\n' c.unit.source = ["#include \"main.hpp\"", "void A::f() \x7b \x7d", ""] := by
  have found : (compile Table.default { pragmaOnce := true } "main.tasty" methodText).toOption.any
      (fun c => Text.cut '\n' c.unit.header = ["#pragma once", "class A \x7b", "public:",
        "\tinline void f();", "\x7d;", ""] ∧
        Text.cut '\n' c.unit.source = ["#include \"main.hpp\"", "void A::f() \x7b \x7d", ""]) =
      true := by
    rw [compile, analyze, methodText, File.read_ofList]
    decide +kernel
  obtain ⟨c, compiled, found⟩ := (Option.any_eq_true _ _).mp found
  exact ⟨c, toOption_eq_some compiled, of_decide_eq_true found⟩

end TastyLang
