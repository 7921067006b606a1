import TastyLang.Proofs.Reading.SpanEnds

/-!
# Marks

Names, written types, variables and classes have places of their own: in a file that was read, the
places where they start grow along the text (`File.read_marks`), since what is marked starts with a
token that is not part of anything below it. A variable is read with its storage.
-/

namespace TastyLang

/-- What reading tells of a node: where it starts, and the storage of a variable. -/
inductive Mark where
  | place (offset : Int)
  | var (offset : Int) (s : Storage)

def Mark.offset : Mark → Int
  | place x | var x _ => x

def Node.mark? : Node → Option Mark
  | .type t => some (.place t.span.start.offset)
  | .expr (.ident span _) => some (.place span.start.offset)
  | .decl (.cls info _ _ _) => some (.place info.span.start.offset)
  | .var d => some (.var d.info.span.start.offset d.storage)
  | _ => none

def Node.place? (n : Node) : Option Int := n.mark?.map Mark.offset

def marksOf (ns : List Node) : List Mark := ns.filterMap Node.mark?

@[simp] theorem marksOf_nil : marksOf [] = [] := rfl

@[simp] theorem marksOf_append (ns ms : List Node) :
    marksOf (ns ++ ms) = marksOf ns ++ marksOf ms := List.filterMap_append

@[simp] theorem marksOf_cons (n : Node) (ns : List Node) :
    marksOf (n :: ns) = n.mark?.toList ++ marksOf ns := by
  unfold marksOf
  rw [List.filterMap_cons]
  cases n.mark? <;> rfl

/-! ### Marked nodes start with a token of their own -/

namespace Piece

/-- The first of the pieces is a token. -/
def Leads (w : List Piece) : Prop := ∃ p v, w = p :: v ∧ p.part? = none

theorem Leads.append {v w : List Piece} (h : Leads v) : Leads (v ++ w) := by
  obtain ⟨p, v, rfl, plain⟩ := h
  exact ⟨p, v ++ w, rfl, plain⟩

theorem Dots.leads {x : String} {w : List Piece} (h : Dots x w) : Leads w := by
  induction h with
  | word => exact ⟨_, _, rfl, rfl⟩
  | dot _ ih => exact ih.append

theorem Leads.phrases {fits : Phrase → List Token → Prop} {w : List Piece} {ts : List Token}
    (h : Leads w) (filled : Filled fits w ts) :
    ∃ t us, ts = t :: us ∧ Phrase.Rows fits (phrases w) us := by
  obtain ⟨p, v, rfl, plain⟩ := h
  cases filled with
  | sign rest =>
    rw [phrases_sign]
    exact ⟨_, _, rfl, .of_filled rest⟩
  | word rest =>
    rw [phrases_word]
    exact ⟨_, _, rfl, .of_filled rest⟩
  | part => cases plain

end Piece

open Piece

theorem Modifiers.Made.leads {ms : Modifiers} {u w : List Piece} (h : ms.Made u) (rest : Leads w) :
    Leads (u ++ w) := by
  obtain ⟨words, -, rfl⟩ := h
  cases words with
  | nil => exact rest
  | cons m words => exact ⟨_, _, rfl, rfl⟩

theorem TypeExpr.Made.leads {t : TypeExpr} {w : List Piece} (h : t.Made w) : Leads w := by
  cases h with
  | named dots => exact dots.leads.append.append
  | _ => exact ⟨_, _, rfl, rfl⟩

theorem VarDecl.Made.leads {d : VarDecl} {w : List Piece} (h : d.Made w) : Leads w := by
  obtain ⟨modifiers, t, -, rfl⟩ := h
  simp only [List.append_assoc]
  exact modifiers.leads ⟨_, _, rfl, rfl⟩

namespace Node

variable {n m : Node} {ts : List Token}

theorem Made.leads {w : List Piece} (h : n.Made w) {x : Int} (marked : n.place? = some x) : Leads w := by
  cases h with
  | type made => exact made.leads
  | var made => exact made.leads
  | expr made =>
    cases made with
    | ident => exact ⟨_, _, rfl, rfl⟩
    | _ => cases marked
  | decl made =>
    cases made with
    | cls modifiers =>
      simp only [List.append_assoc]
      exact modifiers.leads ⟨_, _, rfl, rfl⟩
    | _ => cases marked
  | _ => cases marked

theorem place?_eq {x : Int} (marked : n.place? = some x) : x = n.span.start.offset := by
  unfold place? mark? at marked
  split at marked <;> cases marked <;> rfl

theorem starts_behind (h : (Phrase.node n).Built Phrase.Marked ts) (solid : Token.Solid ts) {x : Int}
    (marked : n.place? = some x) (below : m ∈ n.children.flatMap nodes) : x < m.span.start.offset := by
  obtain ⟨t, us, same, start⟩ := h.marked.head
  obtain ⟨made, filled, -⟩ := h
  cases made with
  | node made =>
    obtain ⟨c, child, below⟩ := List.mem_flatMap.mp below
    obtain ⟨t', us', rfl, rows⟩ := (made.leads marked).phrases filled
    obtain ⟨rfl, rfl⟩ := List.cons.inj same
    rw [(Phrase.Made.node made).phrases] at rows
    obtain ⟨vs, inside, built⟩ := rows.shown.mem (List.mem_map_of_mem child)
    obtain ⟨v, first, start'⟩ := built.ends.1
    have turns := (solid.part (inside.trans (List.suffix_cons _ _).isInfix)).turns
    obtain ⟨lower, -⟩ := start_inside built turns below
    have taken := solid.taken _ List.mem_cons_self
    have apart := (List.pairwise_cons.mp solid.turns).1 v (inside.subset first)
    rw [place?_eq marked]
    have start : t'.pos = n.span.start := start
    have start' : v.pos = c.span.start := start'
    rw [start] at taken
    rw [start'] at apart
    omega

end Node

theorem File.read_marks {table : Table} {name src : String} {file : File}
    (h : File.read table name src = .ok file) :
    (marksOf file.nodes).Pairwise (·.offset < ·.offset) := by
  have place {n : Node} {k : Mark} (marked : n.mark? = some k) : n.place? = some k.offset :=
    congrArg (Option.map Mark.offset) marked
  rw [marksOf, List.pairwise_filterMap]
  refine Node.pairwise_read (fun lt k left l right => ?_) (fun built solid below k left l right => ?_)
    h fun _ _ => nofun
  · rwa [Node.place?_eq (place left), Node.place?_eq (place right)]
  · rw [Node.place?_eq (place right)]
    exact Node.starts_behind built solid (place left) below

theorem ofToken?_resolved {t : Token} {s : Storage} (h : Storage.ofToken? t = some s) :
    s.isUnresolved = false := by
  simp only [Storage.ofToken?] at h
  split at h
  case h_6 =>
    split at h
    · cases h
      rfl
    · split at h
      · split at h
        · cases h
          rfl
        · cases h
      · cases h
  all_goals cases h <;> rfl

theorem File.read_stored {table : Table} {name src : String} {file : File}
    (h : File.read table name src = .ok file) {d : VarDecl} (member : .var d ∈ file.nodes) :
    d.storage.isUnresolved = false := by
  obtain ⟨ts, -, built⟩ := File.read_built h
  obtain ⟨us, -, built⟩ := Node.built_nodes built member
  obtain ⟨w, made⟩ := Node.made_of_built built
  cases made with
  | var made =>
    obtain ⟨-, t, found, -⟩ := made
    exact ofToken?_resolved found

theorem marksOf_apart {ns : List Node} (sorted : (marksOf ns).Pairwise (·.offset < ·.offset)) :
    ns.Pairwise fun n m => ∀ x, n.place? = some x → ∀ y, m.place? = some y → x < y := by
  rw [marksOf, List.pairwise_filterMap] at sorted
  refine sorted.imp fun lt x left y right => ?_
  obtain ⟨a, here, rfl⟩ := Option.map_eq_some_iff.mp left
  obtain ⟨b, there, rfl⟩ := Option.map_eq_some_iff.mp right
  exact lt a here b there

theorem marksOf_inj {ns : List Node} (sorted : (marksOf ns).Pairwise (·.offset < ·.offset))
    {n m : Node} {x : Int} (left : n ∈ ns) (right : m ∈ ns) (here : n.place? = some x)
    (there : m.place? = some x) : n = m := by
  have apart := marksOf_apart sorted
  have forwards : ns.Pairwise fun n m => n.place? = some x → m.place? = some x → n = m :=
    apart.imp fun lt here there => absurd (lt x here x there) (Int.lt_irrefl x)
  have backwards : ns.Pairwise (flip fun n m => n.place? = some x → m.place? = some x → n = m) :=
    apart.imp fun lt there here => absurd (lt x here x there) (Int.lt_irrefl x)
  exact List.Pairwise.forall_of_forall_of_flip (fun _ _ _ _ => rfl) forwards backwards left right
    here there

end TastyLang
