import TastyLang.Proofs.Outcome
import TastyLang.Proofs.Ownership.Paths
import TastyLang.Proofs.Reading.Places
import TastyLang.Reading.Declarations
import TastyLang.Resolution.Bodies

/-!
# Following a path

A path can be computed from the turns it takes: how many rounds each loop makes, and, for each
condition, 0 if it fails and 1 if it holds. `Block.departures_path` says that what is computed is
a path.
-/

namespace TastyLang

namespace Ownership

deriving instance DecidableEq for Departure

/-- A path as far as it was followed, and the turns that it did not need. -/
structure Walk where
  made : List Owned := []
  ran : List Pos
  log : List Departure := []
  flow : Flow := .next
  turns : List Nat

/-- A path that goes nowhere but to what follows. -/
def Walk.on (ran : List Pos) (turns : List Nat) : Walk := { ran, turns }

/-- Follows `n` rounds of a loop. -/
def rounds (round : List Pos → List Nat → Option Walk) (again : List Pos) :
    Nat → List Pos → List Nat → Option Walk
  | 0, ran, turns => some (.on ran turns)
  | n + 1, ran, turns => do
    let w ← round ran turns
    match w.flow with
    | .next =>
      let v ← rounds round again n (w.ran ++ again) w.turns
      return { v with log := w.log ++ v.log }
    | .away .cont d =>
      let v ← rounds round again n (w.ran ++ again) w.turns
      return { v with log := w.log ++ d :: v.log }
    | .away .brk d => return { w with log := w.log ++ [d], flow := .next }
    | .away .ret _ | .cut => return w

end Ownership

open Ownership

mutual

def Stmt.follow (c : Context) (above ran : List Pos) (turns : List Nat) : Stmt → Option Walk
  | .block b => b.follow c above ran turns
  | .expr _ x => some (.on (ran ++ c.varsOf x.deleted) turns)
  | .decl _ d => some { made := (made? d).toList, ran := ran ++ c.freed d.value, turns }
  | .branch _ _ cond yes none =>
    match turns with
    | [] => none
    | 0 :: turns => some (.on (ran ++ c.varsOf cond.deleted) turns)
    | _ :: turns =>
      yes.follow c (above ++ c.varsOf cond.deleted) (ran ++ c.varsOf cond.deleted) turns
  | .branch _ _ cond yes (some s) =>
    match turns with
    | [] => none
    | 0 :: turns =>
      s.follow c (above ++ c.varsOf cond.deleted ++ c.varsOf yes.deletes)
        (ran ++ c.varsOf cond.deleted) turns
    | _ :: turns =>
      yes.follow c (above ++ c.varsOf cond.deleted) (ran ++ c.varsOf cond.deleted) turns
  | .loop _ _ cond body =>
    match turns with
    | [] => none
    | n :: turns =>
      rounds (fun ran turns => body.follow c (above ++ c.freed cond) ran turns) (c.freed cond) n
        (ran ++ c.freed cond) turns
  | .count _ _ _ low high step body =>
    match turns with
    | [] => none
    | n :: turns =>
      rounds (fun ran turns => body.follow c
          (above ++ c.varsOf (low.deleted ++ high.deleted) ++ c.freed step) ran turns)
        (c.freed step ++ c.varsOf high.deleted) n
        (ran ++ c.varsOf (low.deleted ++ high.deleted)) turns
  | .each _ _ _ items body =>
    match turns with
    | [] => none
    | n :: turns =>
      rounds (fun ran turns => body.follow c (above ++ c.varsOf items.deleted) ran turns) [] n
        (ran ++ c.varsOf items.deleted) turns
  | .ret _ value _ effect exit =>
    let ran' := ran ++ c.freed value
    if effect then some (.on ran' turns)
    else some { ran := ran', turns, flow := .away .ret ⟨[], value.bind (kept? c),
      above ++ c.freed value, ran', deletesAt exit⟩ }
  | .brk _ exit => some { ran, turns, flow := .away .brk ⟨[], none, above, ran, deletesAt exit⟩ }
  | .cont _ exit => some { ran, turns, flow := .away .cont ⟨[], none, above, ran, deletesAt exit⟩ }
  | .inject _ _ => some (.on ran turns)

def Block.follow (c : Context) (above ran : List Pos) (turns : List Nat) : Block → Option Walk
  | .mk _ ss owned => do
    let w ← Stmt.followAll c above ran turns ss
    match w.flow with
    | .next =>
      return { w with
        made := []
        log := w.log ++ [⟨w.made, none, above ++ c.varsOf (Stmt.deletesOf ss), w.ran, owned⟩] }
    | .away way d => return { w with made := [], flow := .away way (d.leaving w.made) }
    | .cut => return { w with made := [] }

def Stmt.followAll (c : Context) (above ran : List Pos) (turns : List Nat) :
    List Stmt → Option Walk
  | [] => some (.on ran turns)
  | s :: ss => do
    let w ← s.follow c above ran turns
    match w.flow with
    | .next =>
      let v ← Stmt.followAll c (above ++ c.varsOf s.deletes) w.ran w.turns ss
      return { v with made := w.made ++ v.made, log := w.log ++ v.log }
    | .away _ _ | .cut => return w

end

namespace Ownership

theorem rounds_path {c : Context} {above again : List Pos} {body : Block}
    {round : List Pos → List Nat → Option Walk}
    (path : ∀ {ran turns w}, round ran turns = some w →
      w.made = [] ∧ BlockPath c above ran body w.ran w.log w.flow) :
    {n : Nat} → {ran : List Pos} → {turns : List Nat} → {w : Walk} →
    rounds round again n ran turns = some w →
    w.made = [] ∧ LoopPath c above again ran body w.ran w.log w.flow
  | 0, _, _, _, h => by
    cases h
    exact ⟨rfl, .done⟩
  | n + 1, ran, turns, w, h => by
    simp only [rounds, Option.bind_eq_bind, Option.bind_eq_some_iff] at h
    obtain ⟨u, first, h⟩ := h
    obtain ⟨made, inner⟩ := path first
    split at h
    · next flow =>
      obtain ⟨v, later, same⟩ := Option.bind_eq_some_iff.mp h
      cases same
      obtain ⟨made, rest⟩ := rounds_path path later
      exact ⟨made, .round (flow ▸ inner) rest⟩
    · next d flow =>
      obtain ⟨v, later, same⟩ := Option.bind_eq_some_iff.mp h
      cases same
      obtain ⟨made, rest⟩ := rounds_path path later
      exact ⟨made, .cont (flow ▸ inner) rest⟩
    · next d flow =>
      cases h
      exact ⟨made, .brk (flow ▸ inner)⟩
    · next d flow =>
      cases h
      rw [flow] at inner ⊢
      exact ⟨made, .ret inner⟩
    · next flow =>
      cases h
      rw [flow] at inner ⊢
      exact ⟨made, .cut inner⟩

end Ownership

mutual

theorem Stmt.follow_path {c : Context} {above ran : List Pos} {turns : List Nat} {w : Walk} :
    (s : Stmt) → s.follow c above ran turns = some w →
    StmtPath c above ran s w.made w.ran w.log w.flow
  | .block b, h => by
    obtain ⟨made, path⟩ := b.follow_path h
    exact made ▸ .block path
  | .expr _ _, h => by
    cases h
    exact .expr
  | .decl _ _, h => by
    cases h
    exact .decl
  | .branch _ _ cond yes none, h => by
    cases turns with
    | nil => cases h
    | cons n turns =>
      cases n with
      | zero =>
        cases h
        exact .skip
      | succ n =>
        obtain ⟨made, path⟩ := yes.follow_path h
        exact made ▸ .yes path
  | .branch _ _ cond yes (some s), h => by
    cases turns with
    | nil => cases h
    | cons n turns =>
      cases n with
      | zero => exact .no (s.follow_path h)
      | succ n =>
        obtain ⟨made, path⟩ := yes.follow_path h
        exact made ▸ .yes path
  | .loop _ _ cond body, h => by
    cases turns with
    | nil => cases h
    | cons n turns =>
      obtain ⟨made, path⟩ := rounds_path body.follow_path h
      exact made ▸ .loop path
  | .count _ _ _ low high step body, h => by
    cases turns with
    | nil => cases h
    | cons n turns =>
      obtain ⟨made, path⟩ := rounds_path body.follow_path h
      exact made ▸ .count path
  | .each _ _ _ items body, h => by
    cases turns with
    | nil => cases h
    | cons n turns =>
      obtain ⟨made, path⟩ := rounds_path body.follow_path h
      exact made ▸ .each path
  | .ret _ value _ true exit, h => by
    cases h
    exact .effect
  | .ret _ value _ false exit, h => by
    cases h
    exact .ret
  | .brk _ _, h => by
    cases h
    exact .brk
  | .cont _ _, h => by
    cases h
    exact .cont
  | .inject _ _, h => by
    cases h
    exact .inject

theorem Block.follow_path {c : Context} {above : List Pos} :
    (b : Block) → {ran : List Pos} → {turns : List Nat} → {w : Walk} →
    b.follow c above ran turns = some w →
    w.made = [] ∧ BlockPath c above ran b w.ran w.log w.flow
  | .mk _ ss owned, ran, turns, w, h => by
    obtain ⟨v, inner, h⟩ := Option.bind_eq_some_iff.mp h
    have path := Stmt.followAll_path ss inner
    split at h
    · next flow =>
      cases h
      rw [flow] at path
      exact ⟨rfl, flow ▸ .ends path⟩
    · next flow =>
      cases h
      exact ⟨rfl, .away (flow ▸ path)⟩
    · next flow =>
      cases h
      rw [flow] at path
      exact ⟨rfl, flow ▸ .cut path⟩

theorem Stmt.followAll_path {c : Context} {above ran : List Pos} {turns : List Nat} {w : Walk} :
    (ss : List Stmt) → Stmt.followAll c above ran turns ss = some w →
    StmtsPath c above ran ss w.made w.ran w.log w.flow
  | [], h => by
    cases h
    exact .nil
  | s :: ss, h => by
    obtain ⟨v, first, h⟩ := Option.bind_eq_some_iff.mp h
    have path := s.follow_path first
    split at h
    · next flow =>
      obtain ⟨u, later, same⟩ := Option.bind_eq_some_iff.mp h
      cases same
      exact .cons (flow ▸ path) (Stmt.followAll_path ss later)
    · next flow =>
      cases h
      exact .stop path (by simp [flow])
    · next flow =>
      cases h
      exact .stop path (by simp [flow])

end

/-- The departures of the path through a body that takes these turns. -/
def Block.departures (c : Context) (turns : List Nat) (b : Block) : Option (List Departure) :=
  (b.follow c [] [] turns).map fun w => w.log ++ w.flow.pending

theorem Block.departures_path {c : Context} {turns : List Nat} {b : Block} {log : List Departure}
    (h : b.departures c turns = some log) : BodyPath c b log := by
  obtain ⟨w, followed, same⟩ := Option.map_eq_some_iff.mp h
  exact ⟨w.ran, w.log, w.flow, (b.follow_path followed).2, same.symm⟩

namespace Ownership

/-- A path through the first function of a text. -/
structure Trip where
  file : File
  info : Info
  func : FuncDecl
  body : Block
  settled : Block
  log : List Departure

/-- Follows the path through the first function of a text that takes these turns. -/
def trip? (table : Table) (name src : String) (turns : List Nat) : Option Trip := do
  let file ← (File.read table name src).toOption
  let info ← (file.resolve table).toOption
  let func ← file.funcs.head?
  let body ← func.body
  let settled ← (func.settle info true).body
  let log ← settled.departures (func.ownership info true) turns
  return { file, info, func, body, settled, log }

/-- What a trip says about a text. -/
structure Trip.Follows (t : Trip) (table : Table) (name src : String) : Prop where
  read : File.read table name src = .ok t.file
  resolved : t.file.resolve table = .ok t.info
  func : t.func ∈ t.file.funcs
  body : t.func.body = some t.body
  settled : (t.func.settle t.info true).body = some t.settled
  path : BodyPath (t.func.ownership t.info true) t.settled t.log

theorem trip?_follows {table : Table} {name src : String} {turns : List Nat} {t : Trip}
    (h : trip? table name src turns = some t) : t.Follows table name src := by
  obtain ⟨file, read, h⟩ := Option.bind_eq_some_iff.mp h
  obtain ⟨info, resolved, h⟩ := Option.bind_eq_some_iff.mp h
  obtain ⟨func, first, h⟩ := Option.bind_eq_some_iff.mp h
  obtain ⟨body, has, h⟩ := Option.bind_eq_some_iff.mp h
  obtain ⟨settled, becomes, h⟩ := Option.bind_eq_some_iff.mp h
  obtain ⟨log, path, h⟩ := Option.bind_eq_some_iff.mp h
  cases h
  exact ⟨toOption_eq_some read, toOption_eq_some resolved, List.mem_of_mem_head? first, has,
    becomes, Block.departures_path path⟩

end Ownership

end TastyLang
