import Mathlib.Data.List.Perm.Subperm
import TastyLang.Proofs.Ownership.Paths

/-!
# What is scheduled where a path leaves

Every departure of a path through a settled body schedules, of the pointers that the path made in
the blocks it leaves, those that no `delete` further up names, but not the returned one
(`BodyPath.schedules`). The statements in between keep the ledger in step with what the path made.
-/

namespace TastyLang

namespace Ownership

/-- Whether a pointer is to be deleted at a departure. -/
def Departure.isDue (d : Departure) (o : Owned) : Bool :=
  !d.mentioned.contains o.pos && d.kept != some o.pos

/-- What is scheduled is what is due of the pointers left so far and of `os`. -/
def Departure.Schedules (d : Departure) (os : List Owned) : Prop :=
  d.scheduled = (d.left ++ os).filter d.isDue

variable {d : Departure} {os os' : List Owned}

theorem Departure.Schedules.leaving
    (h : d.Schedules (os ++ os')) : (d.leaving os).Schedules os' := by
  rw [Departure.Schedules, ← List.append_assoc] at h
  exact h

/-- The pointers made in the open blocks that are left on the way. -/
def Way.vacates (way : Way) (frames : List Frame) : List Owned :=
  (leftFrames (way != .ret) frames).flatMap Frame.vars

/-- The same from the outside of a block; only `return` goes beyond a loop. -/
def Way.beyond (way : Way) (loop : Bool) (frames : List Frame) : List Owned :=
  if way != .ret && loop then [] else way.vacates frames

theorem Way.beyond_false (way : Way) (frames : List Frame) :
    way.beyond false frames = way.vacates frames := by
  simp [beyond]

theorem Way.vacates_cons (way : Way) (f : Frame) (fs : List Frame) :
    way.vacates (f :: fs) = f.vars ++ way.beyond f.loop fs := by
  unfold vacates beyond leftFrames
  split <;> simp [vacates]

/-- The departure that a path is about to make schedules what `rest` says beyond what it has left. -/
def Flow.Sound (rest : Way → List Owned) : Flow → Prop
  | .away way d => d.Schedules (rest way)
  | .next | .cut => True

theorem deletes_eq (l : Ledger) (kept : Option Pos) (toLoop : Bool) :
    l.deletes kept toLoop = ((leftFrames toLoop l.frames).flatMap Frame.vars).filter
      fun o => !l.released.contains o.pos && kept != some o.pos := by
  rw [List.filter_flatMap]
  rfl

theorem exitOf_schedules (c : Context) (value : Option Expr) (kept : Option Pos) (way : Way)
    (l : Ledger) (ran : List Pos) :
    Departure.Schedules ⟨[], kept, l.released, ran,
      deletesAt (exitOf c value kept (way != .ret) l).1⟩ (way.vacates l.frames) := by
  rw [Departure.Schedules, (exitOf_apply c value kept _ l).1, deletes_eq]
  rfl

theorem closeFrame_schedules (f : Frame) (fs : List Frame) (released ran : List Pos) :
    Departure.Schedules ⟨f.vars, none, released, ran, (closeFrame ⟨f :: fs, released⟩).1⟩ [] := by
  rw [Departure.Schedules, closeFrame_apply, List.append_nil]
  exact List.filter_congr fun o _ => by simp [Ledger.isLive, Departure.isDue]

variable {log : List Departure} {made : List Owned} {c : Context}

theorem StmtPath.not_leaves {above ran ran' : List Pos} {s : Stmt}
    (path : StmtPath c above ran s made ran' log .next) :
    leaves s = false := by
  cases path <;> rfl

theorem StmtsPath.not_leaves {c : Context} {above ran ran' : List Pos} {ss : List Stmt}
    {made : List Owned} {log : List Departure} :
    StmtsPath c above ran ss made ran' log .next → ss.getLast?.any leaves = false
  | .nil => rfl
  | .cons first .nil => first.not_leaves
  | .cons _ (.cons second rest) => by
    rw [List.getLast?_cons_cons]
    exact (StmtsPath.cons second rest).not_leaves
  | .cons _ (.stop _ stops) => absurd rfl stops
  | .stop _ stops => absurd rfl stops

/-- The rounds of a loop: a `break` or `continue` departs from the body alone. -/
theorem LoopPath.schedules {c : Context} {above again ran ran' : List Pos} {body : Block}
    {log : List Departure} {flow : Flow} {frames : List Frame}
    (round : ∀ {ran ran' log flow}, BlockPath c above ran body ran' log flow →
      (∀ d ∈ log, d.Schedules []) ∧ flow.Sound (·.beyond true frames)) :
    LoopPath c above again ran body ran' log flow →
      (∀ d ∈ log, d.Schedules []) ∧ flow.Sound (·.vacates frames)
  | .done => ⟨by simp, trivial⟩
  | .round first rest => by
    have settled := (round first).1
    have later := LoopPath.schedules round rest
    refine ⟨fun d member => ?_, later.2⟩
    rcases List.mem_append.mp member with member | member
    · exact settled d member
    · exact later.1 d member
  | .cont first rest => by
    have settled := round first
    have later := LoopPath.schedules round rest
    refine ⟨fun d member => ?_, later.2⟩
    rcases List.mem_append.mp member with member | member
    · exact settled.1 d member
    · rcases List.mem_cons.mp member with same | member
      · exact same ▸ settled.2
      · exact later.1 d member
  | .brk last => by
    have settled := round last
    refine ⟨fun d member => ?_, trivial⟩
    rcases List.mem_append.mp member with member | member
    · exact settled.1 d member
    · exact List.mem_singleton.mp member ▸ settled.2
  | .ret last => round last
  | .cut last => ⟨(round last).1, trivial⟩

variable {flow : Flow}

theorem Flow.Sound.of_block {frames : List Frame}
    (h : flow.Sound (·.beyond false frames)) : flow.Sound (·.vacates (extend [] frames)) := by
  simpa only [extend_nil, Way.beyond_false] using h

mutual

theorem StmtPath.schedules {c : Context} {frames : List Frame} {above ran ran' : List Pos}
    {made : List Owned} {log : List Departure} {flow : Flow} : (s : Stmt) → s.Proper →
    StmtPath c above ran (settleStmt c s ⟨frames, above⟩).1 made ran' log flow →
    (∀ d ∈ log, d.Schedules []) ∧ (flow = .next → made = s.makes) ∧
      flow.Sound (·.vacates (extend made frames))
  | .block b, proper, path => by
    simp only [settleStmt, bind_apply, pure_apply] at path
    cases path with
    | cut => exact ⟨by simp, by simp, trivial⟩
    | block inner =>
      obtain ⟨settled, sound⟩ := inner.schedules b proper
      exact ⟨settled, fun _ => rfl, sound.of_block⟩
  | .expr _ _, _, path => by
    simp only [settleStmt, bind_apply, pure_apply] at path
    cases path with
    | cut => exact ⟨by simp, by simp, trivial⟩
    | expr => exact ⟨by simp, fun _ => rfl, trivial⟩
  | .decl _ d, _, path => by
    rw [settleStmt_decl] at path
    cases path with
    | cut => exact ⟨by simp, by simp, trivial⟩
    | decl => exact ⟨by simp, fun _ => rfl, trivial⟩
  | .branch _ _ cond yes none, proper, path => by
    simp only [settleStmt, bind_apply, pure_apply, release_ledger] at path
    cases path with
    | cut => exact ⟨by simp, by simp, trivial⟩
    | skip => exact ⟨by simp, fun _ => rfl, trivial⟩
    | yes inner =>
      obtain ⟨settled, sound⟩ := inner.schedules yes proper
      exact ⟨settled, fun _ => rfl, sound.of_block⟩
  | .branch _ _ cond yes (some s), proper, path => by
    simp only [Stmt.Proper] at proper
    simp only [settleStmt, bind_apply, pure_apply, release_ledger,
      settleBlock_ledger c _ _ yes proper.1] at path
    have none := s.makes_of_isAlternative proper.2.1
    cases path with
    | cut => exact ⟨by simp, by simp, trivial⟩
    | yes inner =>
      obtain ⟨settled, sound⟩ := inner.schedules yes proper.1
      exact ⟨settled, fun _ => rfl, sound.of_block⟩
    | no inner =>
      rw [(settleBlock_text c _ _ yes).1] at inner
      obtain ⟨settled, makes, sound⟩ := inner.schedules s proper.2.2
      exact ⟨settled, fun next => (makes next).trans none, sound⟩
  | .loop _ _ _ body, proper, path => by
    simp only [settleStmt, bind_apply, pure_apply, releaseIn_ledger] at path
    cases path with
    | cut => exact ⟨by simp, by simp, trivial⟩
    | loop inner =>
      obtain ⟨settled, sound⟩ := inner.schedules (fun path => path.schedules body proper)
      exact ⟨settled, fun _ => rfl, by rwa [extend_nil]⟩
  | .count _ _ _ low high _ body, proper, path => by
    simp only [settleStmt, bind_apply, pure_apply, release_ledger, releaseIn_ledger] at path
    cases path with
    | cut => exact ⟨by simp, by simp, trivial⟩
    | count inner =>
      rw [c.varsOf_append, ← List.append_assoc above] at inner
      obtain ⟨settled, sound⟩ := inner.schedules (fun path => path.schedules body proper)
      exact ⟨settled, fun _ => rfl, by rwa [extend_nil]⟩
  | .each _ _ _ _ body, proper, path => by
    simp only [settleStmt, bind_apply, pure_apply, release_ledger] at path
    cases path with
    | cut => exact ⟨by simp, by simp, trivial⟩
    | each inner =>
      obtain ⟨settled, sound⟩ := inner.schedules (fun path => path.schedules body proper)
      exact ⟨settled, fun _ => rfl, by rwa [extend_nil]⟩
  | .ret span value implicit _ _, _, path => by
    rw [settleStmt_ret, releaseIn_ledger] at path
    split at path
    · cases path with
      | cut => exact ⟨by simp, by simp, trivial⟩
      | effect => exact ⟨by simp, fun _ => rfl, trivial⟩
    · cases path with
      | cut => exact ⟨by simp, by simp, trivial⟩
      | ret =>
        refine ⟨by simp, by simp, ?_⟩
        rw [extend_nil]
        exact exitOf_schedules c value _ .ret ⟨frames, above ++ c.freed value⟩ _
  | .brk _ _, _, path => by
    simp only [settleStmt, bind_apply, pure_apply] at path
    cases path with
    | cut => exact ⟨by simp, by simp, trivial⟩
    | brk =>
      refine ⟨by simp, by simp, ?_⟩
      rw [extend_nil]
      exact exitOf_schedules c none none .brk ⟨frames, above⟩ ran
  | .cont _ _, _, path => by
    simp only [settleStmt, bind_apply, pure_apply] at path
    cases path with
    | cut => exact ⟨by simp, by simp, trivial⟩
    | cont =>
      refine ⟨by simp, by simp, ?_⟩
      rw [extend_nil]
      exact exitOf_schedules c none none .cont ⟨frames, above⟩ ran
  | .inject _ _, _, path => by
    simp only [settleStmt, pure_apply] at path
    cases path with
    | cut => exact ⟨by simp, by simp, trivial⟩
    | inject => exact ⟨by simp, fun _ => rfl, trivial⟩

theorem BlockPath.schedules {c : Context} {frames : List Frame} {above ran ran' : List Pos}
    {loop : Bool} {log : List Departure} {flow : Flow} : (b : Block) → b.Proper →
    BlockPath c above ran (settleBlock c loop b ⟨frames, above⟩).1 ran' log flow →
    (∀ d ∈ log, d.Schedules []) ∧ flow.Sound (·.beyond loop frames)
  | .mk _ ss _, proper, path => by
    simp only [settleBlock, bind_apply, pure_apply, openFrame_apply] at path
    cases path with
    | cut inner => exact ⟨(inner.schedules ss proper).1, trivial⟩
    | away inner =>
      obtain ⟨settled, -, sound⟩ := inner.schedules ss proper
      refine ⟨settled, ?_⟩
      simp only [Flow.Sound, extend, List.nil_append, Way.vacates_cons] at sound
      exact sound.leaving
    | ends inner =>
      obtain ⟨settled, makes, -⟩ := inner.schedules ss proper
      refine ⟨fun d member => ?_, trivial⟩
      rcases List.mem_append.mp member with member | member
      · exact settled d member
      · -- the closing brace: no statement leaves, so the block owns what it made
        rw [List.mem_singleton.mp member, inner.not_leaves, settleStmts_ledger c _ ss proper,
          (settleStmts_text c _ ss).1, makes rfl]
        exact closeFrame_schedules ⟨loop, ss.flatMap Stmt.makes⟩ frames _ ran'

theorem StmtsPath.schedules {c : Context} {frames : List Frame} {above ran ran' : List Pos}
    {made : List Owned} {log : List Departure} {flow : Flow} : (ss : List Stmt) →
    Stmt.ProperAll ss →
    StmtsPath c above ran (settleStmts c ss ⟨frames, above⟩).1 made ran' log flow →
    (∀ d ∈ log, d.Schedules []) ∧ (flow = .next → made = ss.flatMap Stmt.makes) ∧
      flow.Sound (·.vacates (extend made frames))
  | [], _, path => by
    cases path
    exact ⟨by simp, fun _ => rfl, trivial⟩
  | s :: ss, proper, path => by
    simp only [Stmt.ProperAll] at proper
    simp only [settleStmts, bind_apply, pure_apply, settleStmt_ledger c _ s proper.1] at path
    cases path with
    | cons first rest =>
      obtain ⟨settled, makes, -⟩ := first.schedules s proper.1
      rw [(settleStmt_text c _ s).1] at rest
      obtain ⟨later, makes', sound⟩ := rest.schedules ss proper.2
      refine ⟨fun d member => ?_, fun next => ?_, ?_⟩
      · rcases List.mem_append.mp member with member | member
        · exact settled d member
        · exact later d member
      · rw [makes rfl, makes' next, List.flatMap_cons]
      · simpa only [extend_extend, makes rfl] using sound
    | stop first stops =>
      obtain ⟨settled, -, sound⟩ := first.schedules s proper.1
      exact ⟨settled, fun next => absurd next stops, sound⟩

end

/-! ### Where departures have their pointers from -/

/-- The pointers `os` are made by different declarations of `places`. -/
def MadeAmong (places : List Pos) (os : List Owned) : Prop := (os.map (·.pos)).Subperm places

theorem MadeAmong.mono {places places' : List Pos} {os : List Owned} (h : MadeAmong places os)
    (sub : places.Sublist places') : MadeAmong places' os := List.Subperm.trans h sub.subperm

theorem MadeAmong.append {places places' : List Pos} (h : MadeAmong places os)
    (h' : MadeAmong places' os') :
    MadeAmong (places ++ places') (os ++ os') := by
  rw [MadeAmong, List.map_append]
  exact List.Subperm.append h h'

theorem MadeAmong.swap {places : List Pos}
    (h : MadeAmong places (os ++ os')) : MadeAmong places (os' ++ os) :=
  (List.Perm.map _ List.perm_append_comm).subperm.trans h

theorem madeAmong_nil (places : List Pos) : MadeAmong places [] := List.nil_subperm

/-- Where a departure has its pointers and its deletes from. -/
structure Departure.Within (d : Departure) (mentions places : List Pos) : Prop where
  mentioned : d.mentioned ⊆ mentions
  left : MadeAmong places d.left

variable {mentions mentions' places places' : List Pos}

theorem Departure.Within.mono (h : d.Within mentions places) (more : mentions ⊆ mentions')
    (sub : places.Sublist places') :
    d.Within mentions' places' :=
  ⟨List.Subset.trans h.mentioned more, h.left.mono sub⟩

/-- The same for the departure that a path is about to make after it made `made`. -/
def Flow.Within (made : List Owned) (mentions places : List Pos) : Flow → Prop
  | .away _ d => d.mentioned ⊆ mentions ∧ MadeAmong places (made ++ d.left)
  | .next | .cut => MadeAmong places made

theorem Flow.Within.mono (h : flow.Within made mentions places) (more : mentions ⊆ mentions')
    (sub : places.Sublist places') :
    flow.Within made mentions' places' := by
  cases flow with
  | away way d => exact ⟨List.Subset.trans h.1 more, h.2.mono sub⟩
  | next => exact MadeAmong.mono h sub
  | cut => exact MadeAmong.mono h sub

/-- A path stays within the deletes and the declarations of a piece of text. -/
structure PathWithin (mentions places : List Pos) (made : List Owned) (log : List Departure)
    (flow : Flow) : Prop where
  done : ∀ d ∈ log, d.Within mentions places
  going : flow.Within made mentions places

theorem PathWithin.mono (h : PathWithin mentions places made log flow) (more : mentions ⊆ mentions')
    (sub : places.Sublist places') :
    PathWithin mentions' places' made log flow :=
  ⟨fun d member => (h.done d member).mono more sub, h.going.mono more sub⟩

theorem made?_among (d : VarDecl) : MadeAmong [d.info.span.start] (made? d).toList := by
  unfold made?
  split
  · split
    · exact List.Subperm.refl _
    · exact madeAmong_nil _
  · exact madeAmong_nil _

mutual

theorem StmtPath.within {c : Context} {above ran ran' : List Pos} {s : Stmt} {made : List Owned}
    {log : List Departure} {flow : Flow} : StmtPath c above ran s made ran' log flow →
    PathWithin (above ++ c.varsOf s.deletes) s.declared made log flow
  | .cut => ⟨by simp, madeAmong_nil _⟩
  | .block inner => inner.within
  | .expr => ⟨by simp, madeAmong_nil _⟩
  | .decl => ⟨by simp, made?_among _⟩
  | @StmtPath.yes _ _ _ _ _ _ _ no _ _ _ inner => by
    cases no with
    | none =>
      refine inner.within.mono ?_ (List.Sublist.refl _)
      simp [Stmt.deletes]
    | some s =>
      refine inner.within.mono ?_ (List.sublist_append_left _ _)
      simp only [Stmt.deletes, Context.varsOf_append, ← List.append_assoc]
      exact List.subset_append_left _ _
  | .no inner => by
    refine inner.within.mono ?_ (List.sublist_append_right _ _)
    simp [Stmt.deletes]
  | .skip => ⟨by simp, madeAmong_nil _⟩
  | .loop inner => by
    refine inner.within.mono ?_ (List.Sublist.refl _)
    simp [Stmt.deletes, Context.freed]
  | .count inner => by
    refine inner.within.mono ?_ (List.Sublist.refl _)
    simp [Stmt.deletes, Context.freed]
  | .each inner => by
    refine inner.within.mono ?_ (List.Sublist.refl _)
    simp [Stmt.deletes]
  | .effect => ⟨by simp, madeAmong_nil _⟩
  | .ret => ⟨by simp, by simp [Stmt.deletes, Context.freed], madeAmong_nil _⟩
  | .brk => ⟨by simp, by simp, madeAmong_nil _⟩
  | .cont => ⟨by simp, by simp, madeAmong_nil _⟩
  | .inject => ⟨by simp, madeAmong_nil _⟩

theorem BlockPath.within {c : Context} {above ran ran' : List Pos} {b : Block}
    {log : List Departure} {flow : Flow} : BlockPath c above ran b ran' log flow →
    PathWithin (above ++ c.varsOf b.deletes) b.declared [] log flow
  | .ends inner => by
    have ⟨done, going⟩ := inner.within
    refine ⟨fun d member => ?_, madeAmong_nil _⟩
    rcases List.mem_append.mp member with member | member
    · exact done d member
    · rw [List.mem_singleton.mp member]
      exact ⟨List.Subset.refl _, going⟩
  | .away inner => by
    have ⟨done, mentioned, left⟩ := inner.within
    exact ⟨done, mentioned, left.swap⟩
  | .cut inner => ⟨inner.within.done, madeAmong_nil _⟩

theorem StmtsPath.within {c : Context} {above ran ran' : List Pos} {ss : List Stmt}
    {made : List Owned} {log : List Departure} {flow : Flow} :
    StmtsPath c above ran ss made ran' log flow →
    PathWithin (above ++ c.varsOf (Stmt.deletesOf ss)) (Stmt.declaredIn ss) made log flow
  | .nil => ⟨by simp, madeAmong_nil _⟩
  | .cons first rest => by
    have ⟨done, going⟩ := first.within
    have ⟨done', going'⟩ := rest.within
    simp only [Stmt.deletesOf, Stmt.declaredIn, Context.varsOf_append, ← List.append_assoc]
    refine ⟨fun d member => ?_, ?_⟩
    · rcases List.mem_append.mp member with member | member
      · exact (done d member).mono (List.subset_append_left _ _) (List.sublist_append_left _ _)
      · exact (done' d member).mono (List.Subset.refl _) (List.sublist_append_right _ _)
    · cases flow with
      | away way d =>
        refine ⟨going'.1, ?_⟩
        rw [List.append_assoc]
        exact MadeAmong.append going going'.2
      | next => exact MadeAmong.append going going'
      | cut => exact MadeAmong.append going going'
  | .stop first _ => by
    refine first.within.mono ?_ (List.sublist_append_left _ _)
    simp [Stmt.deletesOf]

theorem LoopPath.within {c : Context} {above again ran ran' : List Pos} {body : Block}
    {log : List Departure} {flow : Flow} : LoopPath c above again ran body ran' log flow →
    PathWithin (above ++ c.varsOf body.deletes) body.declared [] log flow
  | .done => ⟨by simp, madeAmong_nil _⟩
  | .round first rest => by
    have ⟨done, _⟩ := first.within
    have ⟨done', going⟩ := rest.within
    exact ⟨fun d member => (List.mem_append.mp member).elim (done d) (done' d), going⟩
  | .cont first rest => by
    have ⟨done, mentioned, left⟩ := first.within
    have ⟨done', going⟩ := rest.within
    refine ⟨fun d member => ?_, going⟩
    rcases List.mem_append.mp member with member | member
    · exact done d member
    · rcases List.mem_cons.mp member with same | member
      · exact same ▸ ⟨mentioned, left⟩
      · exact done' d member
  | .brk last => by
    have ⟨done, mentioned, left⟩ := last.within
    refine ⟨fun d member => ?_, madeAmong_nil _⟩
    rcases List.mem_append.mp member with member | member
    · exact done d member
    · exact List.mem_singleton.mp member ▸ ⟨mentioned, left⟩
  | .ret last => last.within
  | .cut last => ⟨last.within.done, madeAmong_nil _⟩

end

/-! ### Bodies -/

theorem BodyPath.schedules {b : Block} (proper : b.Proper)
    (path : BodyPath c (settleBlock c false b {}).1 log) (member : d ∈ log) :
    d.Schedules [] := by
  obtain ⟨_, done, flow, path, rfl⟩ := path
  obtain ⟨settled, sound⟩ := path.schedules b proper
  rcases List.mem_append.mp member with member | member
  · exact settled d member
  · cases flow with
    | away way d' =>
      rw [List.mem_singleton.mp member]
      simpa [Flow.Sound, Way.beyond, Way.vacates, leftFrames] using sound
    | next => exact absurd member List.not_mem_nil
    | cut => exact absurd member List.not_mem_nil

theorem BodyPath.within {b : Block} (path : BodyPath c b log)
    (member : d ∈ log) : d.Within (c.varsOf b.deletes) b.declared := by
  obtain ⟨_, done, flow, path, rfl⟩ := path
  have ⟨done, going⟩ := path.within
  rcases List.mem_append.mp member with member | member
  · exact done d member
  · cases flow with
    | away way d' => exact List.mem_singleton.mp member ▸ ⟨going.1, going.2⟩
    | next => exact absurd member List.not_mem_nil
    | cut => exact absurd member List.not_mem_nil

end Ownership

end TastyLang
