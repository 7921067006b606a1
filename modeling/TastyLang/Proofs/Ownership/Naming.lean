import TastyLang.Builtin.Basic
import TastyLang.Emission.Statements
import TastyLang.Proofs.Evaluation
import TastyLang.Proofs.Ownership.Walk
import TastyLang.Proofs.Reading.Stretches
import TastyLang.Proofs.Resolution.Bodies

/-!
# What the name in a delete stands for

Pointers are scheduled for deletion as variables but written by name. `FuncDecl.sites` lists the
places where a function deletes pointers in C++, each with the names of the scopes that are open
there; `Emission.FuncDecl.holds_sites` finds them in the text. A delete means its own pointer exactly
when no scope inside of the pointer's block declares the name (`delete_names_own_iff`), so the deletes
at a closing brace always do.
-/

namespace TastyLang

namespace Ownership

/-- What a name in a C++ scope stands for. -/
inductive Local where
  /-- a variable, by the place of its declaration -/
  | var (pos : Pos)
  | loop (pos : Pos)
  | param (pos : Pos)
  /-- the temporary that holds a returned value -/
  | held
  deriving DecidableEq

/-- The names that an open scope declares so far. -/
abbrev Names := List (String × Local)

/-- A place where a pointer is deleted, with the scopes that are open there, the innermost first. -/
structure Site where
  owned : Owned
  scopes : List Names
  /-- whether the place is the closing brace of a block -/
  closing : Bool := false

def Site.found (s : Site) : Option Local := s.scopes.findSome? (·.lookup s.owned.name)

def exitSites (scopes : List Names) (exit : Option Exit) : List Site :=
  (deletesAt exit).map fun o => { owned := o, scopes }

/-- The scopes around the deletes of a `return`; one that holds its value opens a scope for it. -/
def heldScopes (scopes : List Names) (value : Option Expr) (exit : Option Exit) : List Names :=
  if value.isSome && exit.any (·.hold) then [(Emission.heldResult, .held)] :: scopes else scopes

end Ownership

open Ownership

set_option maxRecDepth 100000

/-- What a statement declares in the scope around it. -/
def Stmt.names : Stmt → Names
  | .decl _ d => [(d.name, .var d.info.span.start)]
  | _ => []

mutual

/-- The deletes that a settled statement writes, in the order of the text. -/
def Stmt.sites (scopes : List Names) : Stmt → List Site
  | .block b => b.sites scopes
  | .branch _ _ _ yes none => yes.sites scopes
  | .branch _ _ _ yes (some s) => yes.sites scopes ++ s.sites scopes
  | .loop _ _ _ body => body.sites scopes
  | .count span _ name _ _ _ body | .each span name _ _ body =>
    body.sites ([(name, .loop span.start)] :: scopes)
  | .ret _ value _ effect exit =>
    if effect then [] else exitSites (heldScopes scopes value exit) exit
  | .brk _ exit | .cont _ exit => exitSites scopes exit
  | .expr _ _ | .decl _ _ | .inject _ _ => []

def Block.sites (scopes : List Names) : Block → List Site
  | .mk _ ss owned => Stmt.sitesIn owned [] scopes ss

/-- The deletes of the rest of a block, which deletes `owned` at its end and declares `here` so
far. -/
def Stmt.sitesIn (owned : List Owned) (here : Names) (scopes : List Names) : List Stmt → List Site
  | [] => owned.map fun o => { owned := o, scopes := here :: scopes, closing := true }
  | s :: ss => s.sites (here :: scopes) ++ Stmt.sitesIn owned (s.names ++ here) scopes ss

end

/-- The deletes that a settled function writes. -/
def FuncDecl.sites (f : FuncDecl) : List Site :=
  match f.body with
  | some b => b.sites [f.params.map fun q => (q.name, .param q.span.start)]
  | none => []

namespace Ownership

/-! ### Looking a name up -/

theorem lookup_eq_none {ns : Names} {name : String} :
    ns.lookup name = none ↔ name ∉ ns.map Prod.fst := by
  rw [List.lookup_eq_none_iff]
  constructor
  · intro absent member
    obtain ⟨x, inside, rfl⟩ := List.mem_map.mp member
    simpa using absent x inside
  · intro absent x inside
    exact bne_iff_ne.mpr fun same => absent (same ▸ List.mem_map_of_mem inside)

end Ownership

/-- The scope `own` declares the pointer, and none of the scopes `inner` inside of it does. -/
structure Owned.StandsIn (o : Owned) (inner : List Names) (own : Names) : Prop where
  own : own.lookup o.name = some (.var o.pos)
  inner : ∀ ns ∈ inner, (o.name, .var o.pos) ∉ ns

variable {o : Owned}

theorem Owned.StandsIn.found_iff {inner : List Names} {own : Names} (h : o.StandsIn inner own)
    (outer : List Names) :
    (inner ++ own :: outer).findSome? (·.lookup o.name) = some (.var o.pos) ↔
      ∀ ns ∈ inner, o.name ∉ ns.map Prod.fst := by
  obtain ⟨declares, silent⟩ := h
  induction inner with
  | nil => simp [declares]
  | cons ns inner ih =>
    obtain ⟨first, rest⟩ := List.forall_mem_cons.mp silent
    rw [List.cons_append, List.findSome?_cons, List.forall_mem_cons]
    cases found : ns.lookup o.name with
    | none =>
      rw [← ih rest]
      simp [lookup_eq_none.mp found]
    | some x =>
      have declared : (o.name, x) ∈ ns := Resolution.mem_of_lookup found
      constructor
      · intro same
        cases same
        exact absurd declared first
      · intro absent
        exact absurd (List.mem_map.mpr ⟨_, declared, rfl⟩) absent.1

/-- One of the scopes declares the pointer. -/
def Owned.Stands (o : Owned) (scopes : List Names) : Prop :=
  ∃ inner own outer, scopes = inner ++ own :: outer ∧ o.StandsIn inner own

variable {scopes : List Names}

theorem Owned.Stands.push (h : o.Stands scopes) {ns : Names}
    (other : (o.name, .var o.pos) ∉ ns) : o.Stands (ns :: scopes) := by
  obtain ⟨inner, own, outer, rfl, stands⟩ := h
  exact ⟨ns :: inner, own, outer, rfl, stands.own,
    List.forall_mem_cons.mpr ⟨other, stands.inner⟩⟩

theorem Owned.Stands.declare {here : Names} (h : o.Stands (here :: scopes)) {name : String}
    {pos : Pos} (fresh : name ∉ here.map Prod.fst)
    (other : o.pos ≠ pos) : o.Stands (((name, .var pos) :: here) :: scopes) := by
  obtain ⟨inner, own, outer, same, stands⟩ := h
  cases inner with
  | nil =>
    cases same
    refine ⟨[], _, _, rfl, ?_, by simp⟩
    have different : o.name ≠ name := by
      rintro rfl
      exact fresh (List.mem_map.mpr ⟨_, Resolution.mem_of_lookup stands.own, rfl⟩)
    rw [List.lookup_cons, beq_false_of_ne different]
    exact stands.own
  | cons ns inner =>
    cases same
    obtain ⟨first, rest⟩ := List.forall_mem_cons.mp stands.inner
    refine ⟨_ :: inner, own, outer, rfl, stands.own, List.forall_mem_cons.mpr ⟨?_, rest⟩⟩
    intro member
    rcases List.mem_cons.mp member with same | member
    · cases same
      exact other rfl
    · exact first member

namespace Ownership

/-- The scope that declares the pointer of a delete is open where it is written, and the name means
the pointer exactly when no scope inside of that one declares the name. At a closing brace there is
no scope inside. -/
def Site.Placed (s : Site) : Prop :=
  ∃ inner own outer, s.scopes = inner ++ own :: outer ∧
    (s.owned.name, .var s.owned.pos) ∈ own ∧
    (s.found = some (.var s.owned.pos) ↔ ∀ ns ∈ inner, s.owned.name ∉ ns.map Prod.fst) ∧
    (s.closing = true → inner = [])

theorem placed_of_stands (h : o.Stands scopes) :
    Site.Placed { owned := o, scopes } := by
  obtain ⟨inner, own, outer, rfl, stands⟩ := h
  exact ⟨inner, own, outer, rfl, Resolution.mem_of_lookup stands.own, stands.found_iff outer,
    by simp⟩

theorem placed_closing {here : Names} (scopes : List Names) (distinct : (here.map Prod.fst).Nodup)
    (member : (o.name, .var o.pos) ∈ here) :
    Site.Placed { owned := o, scopes := here :: scopes, closing := true } := by
  have stands : o.StandsIn [] here := ⟨lookup_of_mem distinct member, by simp⟩
  exact ⟨[], here, scopes, rfl, member, stands.found_iff scopes, by simp⟩

/-! ### Settling -/

/-- The pointers that the open blocks made so far were declared above `p`, in one of the scopes. -/
def Covers (p : Pos) (frames : List Frame) (scopes : List Names) : Prop :=
  ∀ f ∈ frames, ∀ o ∈ f.vars, o.pos.offset < p.offset ∧ o.Stands scopes

variable {frames : List Frame}

theorem Covers.mono {p q : Pos} (h : Covers p frames scopes)
    (reaches : p.Reaches q) : Covers q frames scopes :=
  fun f open_ o made => ⟨Int.lt_of_lt_of_le (h f open_ o made).1 reaches.1, (h f open_ o made).2⟩

variable {p : Pos}

theorem Covers.push (h : Covers p frames scopes) {ns : Names}
    (none_ : ∀ name pos, (name, .var pos) ∉ ns) :
    Covers p frames (ns :: scopes) :=
  fun f open_ o made => ⟨(h f open_ o made).1, (h f open_ o made).2.push (none_ _ _)⟩

theorem Covers.openFrame (h : Covers p frames scopes)
    (loop : Bool) : Covers p ({ loop } :: frames) ([] :: scopes) := by
  rintro f (_ | ⟨_, open_⟩) o made
  · cases made
  · exact h.push (by simp) f open_ o made

theorem Covers.held (h : Covers p frames scopes) (value : Option Expr) (exit : Option Exit) :
    Covers p frames (heldScopes scopes value exit) := by
  unfold heldScopes
  split
  · exact h.push (by simp)
  · exact h

theorem exitOf_placed {l : Ledger} (covers : Covers p l.frames scopes) (c : Context)
    (value : Option Expr) (kept : Option Pos)
    (toLoop : Bool) : ∀ s ∈ exitSites scopes (exitOf c value kept toLoop l).1, s.Placed := by
  intro s member
  obtain ⟨o, due, rfl⟩ := List.mem_map.mp member
  rw [(exitOf_apply c value kept toLoop l).1] at due
  obtain ⟨f, inside, made⟩ := mem_deletes due
  exact placed_of_stands (covers f inside o made).2

theorem names_or (s : Stmt) :
    (∃ span d, s = .decl span d) ∨ (s.names = [] ∧ s.makes = [] ∧ s.binds = []) := by
  cases s with
  | decl span d => exact .inl ⟨span, d, rfl⟩
  | _ => exact .inr ⟨rfl, rfl, rfl⟩

theorem names_binds (s : Stmt) : s.names.map Prod.fst = s.binds := by
  cases s <;> rfl

theorem names_makes {s : Stmt} (made : o ∈ s.makes) :
    (o.name, .var o.pos) ∈ s.names := by
  rcases names_or s with ⟨span, d, rfl⟩ | ⟨-, none_, -⟩
  · obtain ⟨name, pos⟩ := made?_eq (Option.mem_toList.mp made)
    rw [name, pos]
    exact List.mem_cons_self
  · rw [none_] at made
    cases made

theorem settleStmt_names (c : Context) (l : Ledger) (s : Stmt) :
    (settleStmt c s l).1.names = s.names := by
  cases s with
  | decl span d => rw [settleStmt_decl]
  | ret span value implicit effect exit =>
    rw [settleStmt_ret]
    split <;> rfl
  | branch span negate cond yes no => cases no <;> simp [settleStmt, Stmt.names]
  | _ => simp [settleStmt, Stmt.names]

theorem Covers.behind {p q : Pos} {here : Names} (h : Covers p frames (here :: scopes)) {s : Stmt}
    (lies : s.Lies p q) (fresh : ∀ n ∈ s.binds, n ∉ here.map Prod.fst) :
    Covers q (extend s.makes frames) ((s.names ++ here) :: scopes) := by
  rcases names_or s with ⟨span, d, rfl⟩ | ⟨names, makes, -⟩
  · have start : d.info.span.start = p := by cases lies; exact (‹VarDecl.Lies _ _ _›).start
    have old : Covers q frames (((d.name, .var d.info.span.start) :: here) :: scopes) := by
      intro f open_ o made
      obtain ⟨above, stands⟩ := h f open_ o made
      refine ⟨Int.lt_trans above lies.passes.offset, stands.declare ?_ ?_⟩
      · exact fresh _ (List.mem_singleton_self _)
      · rintro same
        rw [same, start] at above
        omega
    cases frames with
    | nil => exact old
    | cons f fs =>
      obtain ⟨first, rest⟩ := List.forall_mem_cons.mp old
      refine List.forall_mem_cons.mpr ⟨fun o made => ?_, rest⟩
      rcases List.mem_append.mp made with made | made
      · exact first o made
      · obtain ⟨name, pos⟩ := made?_eq (Option.mem_toList.mp made)
        refine ⟨?_, [], _, _, rfl, ?_, by simp⟩
        · rw [pos, start]
          exact lies.passes.offset
        · rw [name, pos]
          exact List.lookup_cons_self
  · rw [names, makes, extend_nil]
    exact h.mono lies.passes.reaches

mutual

theorem settleStmt_sites (c : Context) {l : Ledger} {scopes : List Names} {p q : Pos} {s : Stmt} :
    s.Lies p q → s.Distinct → Covers p l.frames scopes →
    ∀ x ∈ (settleStmt c s l).1.sites scopes, x.Placed
  | .block b, distinct, covers => settleBlock_sites c false b distinct covers
  | .branch _ cond yes, distinct, covers =>
    settleBlock_sites c false yes distinct (covers.mono cond.1.reaches)
  | .branches _ cond yes word _ no, distinct, covers => by
    rw [Stmt.Distinct] at distinct
    have before := covers.mono cond.1.reaches
    intro x member
    simp only [settleStmt, bind_apply, pure_apply, Stmt.sites, List.mem_append] at member
    rcases member with member | member
    · exact settleBlock_sites c false yes distinct.1 (by exact before) x member
    · refine settleStmt_sites c no distinct.2 ?_ x member
      rw [settleBlock_ledger c _ _ _ yes.proper]
      exact before.mono (yes.passes.reaches.trans word.reaches)
  | .loop _ room _ body, distinct, covers => by
    simp only [settleStmt, bind_apply, pure_apply, Stmt.sites]
    refine settleBlock_sites c true body distinct ?_
    rw [releaseIn_ledger]
    exact covers.mono room.reaches
  | .count _ _ room _ _ _ body, distinct, covers => by
    simp only [settleStmt, bind_apply, pure_apply, Stmt.sites]
    refine settleBlock_sites c true body distinct ?_
    rw [releaseIn_ledger]
    exact (covers.mono room.reaches).push (by simp)
  | .each _ _ items body, distinct, covers =>
    settleBlock_sites c true body distinct ((covers.mono items.1.reaches).push (by simp))
  | .ret _ _ _ _, _, covers => by
    rw [settleStmt_ret]
    split
    · simp [Stmt.sites]
    · refine exitOf_placed (p := p) ?_ c _ _ false
      rw [releaseIn_ledger]
      exact covers.held _ _
  | .brk _ _ _, _, covers => exitOf_placed covers c none none true
  | .cont _ _ _, _, covers => exitOf_placed covers c none none true
  | .expr _ _, _, _ => by
    simp [settleStmt, Stmt.sites]
  | .decl _ _, _, _ => by
    rw [settleStmt_decl]
    simp [Stmt.sites]
  | .inject _ _, _, _ => by
    simp [settleStmt, Stmt.sites]

theorem settleBlock_sites (c : Context) (loop : Bool) {l : Ledger} {scopes : List Names} {p q : Pos}
    {b : Block} : b.Lies p q → b.Distinct → Covers p l.frames scopes →
    ∀ x ∈ (settleBlock c loop b l).1.sites scopes, x.Placed
  | .mk _ opens stmts _ _ _, distinct, covers => by
    have inside := (covers.mono opens.reaches).openFrame loop
    simp only [settleBlock, bind_apply, pure_apply, Block.sites, openFrame_apply]
    refine settleStmts_sites c stmts distinct.2 distinct.1 inside fun o member => ?_
    split at member
    · cases member
    · rw [settleStmts_ledger c _ _ stmts.proper] at member
      exact .inr (List.mem_filter.mp member).1

/-- The rest of a block: `owned` are pointers of the block, made before or by the rest. -/
theorem settleStmts_sites (c : Context) {l : Ledger} {owned : List Owned} {here : Names}
    {scopes : List Names} {p q : Pos} {ss : List Stmt} :
    Stmt.LieIn p ss q → Stmt.DistinctAll ss →
    (here.map Prod.fst ++ ss.flatMap Stmt.binds).Nodup → Covers p l.frames (here :: scopes) →
    (∀ o ∈ owned, (o.name, .var o.pos) ∈ here ∨ o ∈ ss.flatMap Stmt.makes) →
    ∀ x ∈ Stmt.sitesIn owned here scopes (settleStmts c ss l).1, x.Placed
  | .nil, _, fresh, _, mine => by
    intro x member
    obtain ⟨o, due, rfl⟩ := List.mem_map.mp member
    rw [List.flatMap_nil, List.append_nil] at fresh
    refine placed_closing scopes fresh ((mine o due).resolve_right ?_)
    simp
  | @Stmt.LieIn.cons _ _ _ s ss first rest, distinct, fresh, covers, mine => by
    rw [Stmt.DistinctAll] at distinct
    rw [List.flatMap_cons] at fresh
    have moved : ((s.names ++ here).map Prod.fst ++ ss.flatMap Stmt.binds).Nodup := by
      rw [List.map_append, names_binds, List.append_assoc]
      exact (List.perm_append_comm_assoc _ _ _).nodup_iff.mp fresh
    have new : ∀ n ∈ s.binds, n ∉ here.map Prod.fst := fun n bound member =>
      (List.nodup_append.mp fresh).2.2 n member n (List.mem_append_left _ bound) rfl
    have later : ∀ o ∈ owned, (o.name, .var o.pos) ∈ s.names ++ here ∨ o ∈ ss.flatMap Stmt.makes := by
      intro o due
      rcases mine o due with declared | made
      · exact .inl (List.mem_append_right _ declared)
      · rcases List.mem_append.mp made with made | made
        · exact .inl (List.mem_append_left _ (names_makes made))
        · exact .inr made
    intro x member
    simp only [settleStmts, bind_apply, pure_apply, Stmt.sitesIn, settleStmt_names,
      List.mem_append] at member
    rcases member with member | member
    · exact settleStmt_sites c first distinct.1 covers x member
    · refine settleStmts_sites c rest distinct.2 moved ?_ later x member
      rw [settleStmt_ledger c _ s first.proper]
      exact covers.behind first new

end

/-- Wherever a function deletes a pointer, the scope that declares it is open, and the name finds the
pointer exactly when no scope inside of that one declares the name, too. At a closing brace there is
no scope inside. -/
theorem delete_names_own_iff {table : Table} {name src : String} {file : File} {info : Info}
    {f : FuncDecl} {atTop : Bool} {s : Site} (read : File.read table name src = .ok file)
    (resolved : file.resolve table = .ok info) (func : f ∈ file.funcs)
    (site : s ∈ (f.settle info atTop).sites) :
    ∃ inner own outer, s.scopes = inner ++ own :: outer ∧
      (s.owned.name, .var s.owned.pos) ∈ own ∧
      (s.found = some (.var s.owned.pos) ↔ ∀ ns ∈ inner, s.owned.name ∉ ns.map Prod.fst) ∧
      (s.closing = true → inner = []) := by
  obtain ⟨_, _, lies⟩ := File.read_lies read
  have known : table.Spelt fun _ => True := fun _ _ => ⟨trivial, trivial⟩
  have distinct := (File.resolve_sound Spelling.all known lies resolved).2 f func
  obtain ⟨_, _, lies⟩ := lies.funcs.lies f func
  rw [FuncDecl.sites, FuncDecl.settle] at site
  cases body : f.body with
  | none => simp [body] at site
  | some b =>
    obtain ⟨_, _, lies⟩ := lies.body b body
    simp only [body, Option.map_some] at site
    exact settleBlock_sites _ false lies (distinct b body) (by simp [Covers]) s site

/-- A text whose inner block declares the name of a pointer again. -/
def shadowText : String := "fn f(c: bool) {
  ptr p = new W();
  if c { copy p = 1; return; }
}
"

theorem shadow_found : (trip? Table.default "main.tasty" shadowText [0]).any (fun t =>
    (t.func.settle t.info true).sites.map (fun s => (s.owned.name, s.closing)) ==
        [("p", false), ("p", true)] &&
      (t.func.settle t.info true).sites.any fun s =>
        match s.found with
        | some (.var pos) => pos ≠ s.owned.pos
        | _ => false) = true := by
  rw [trip?, shadowText, File.read_ofList]
  decide +kernel

theorem delete_names_own_iff_at_return :
    ∃ t, trip? Table.default "main.tasty" shadowText [0] = some t ∧
      (t.func.settle t.info true).sites.map (fun s => (s.owned.name, s.closing)) =
        [("p", false), ("p", true)] ∧
      ∀ s ∈ (t.func.settle t.info true).sites, ∃ inner own outer, s.scopes = inner ++ own :: outer ∧
        (s.owned.name, .var s.owned.pos) ∈ own ∧
        (s.found = some (.var s.owned.pos) ↔ ∀ ns ∈ inner, s.owned.name ∉ ns.map Prod.fst) ∧
        (s.closing = true → inner = []) := by
  obtain ⟨t, trip, here⟩ := (Option.any_eq_true _ _).mp shadow_found
  have follows := trip?_follows trip
  exact ⟨t, trip, beq_iff_eq.mp (Bool.and_eq_true_iff.mp here).1, fun s site =>
    delete_names_own_iff follows.read follows.resolved follows.func site⟩

/-- In front of the `return` the name stands for the inner variable and not for the pointer. -/
theorem delete_names_inner_variable :
    ∃ file info f s, File.read Table.default "main.tasty" shadowText = .ok file ∧
      file.resolve Table.default = .ok info ∧ f ∈ file.funcs ∧ s ∈ (f.settle info true).sites ∧
      ∃ pos, s.found = some (.var pos) ∧ pos ≠ s.owned.pos := by
  obtain ⟨t, trip, here⟩ := (Option.any_eq_true _ _).mp shadow_found
  have follows := trip?_follows trip
  obtain ⟨s, site, here⟩ := List.any_eq_true.mp (Bool.and_eq_true_iff.mp here).2
  refine ⟨t.file, t.info, t.func, s, follows.read, follows.resolved, follows.func, site, ?_⟩
  split at here
  · next pos found => exact ⟨pos, found, of_decide_eq_true here⟩
  · cases here

end Ownership

end TastyLang
