import TastyLang.Proofs.Ownership.Paths

/-!
# Distinct places

In a text that was read, no two variables of a body and no two functions of a file start at the same
place: the places where they start grow along the text.
-/

namespace TastyLang

/-! ### Variables of a body -/

mutual

theorem Stmt.Lies.declared {p q : Pos} {s : Stmt} :
    s.Lies p q → Spread Pos.offset p.offset s.declared q.offset
  | .block b => b.declared
  | .expr _ _ => .nil _ _
  | .decl _ d => by
    rw [← d.start]
    exact .single (d.start ▸ d.room.offset)
  | .branch _ cond yes => yes.declared.mono (Int.le_of_lt cond.1.offset) (Int.le_refl _)
  | .branches _ cond yes word _ no => by
    have first := yes.declared.mono (Int.le_of_lt cond.1.offset) (Int.le_refl _)
    have second := no.declared.mono (Int.le_of_lt word.offset) (Int.le_refl _)
    have := cond.1.offset
    have := yes.passes.offset
    have := word.offset
    have := no.passes.offset
    exact first.append second (by omega) (by omega)
  | .loop _ room _ body => body.declared.mono (Int.le_of_lt room.offset) (Int.le_refl _)
  | .count _ _ room _ _ _ body => body.declared.mono (Int.le_of_lt room.offset) (Int.le_refl _)
  | .each _ _ items body => body.declared.mono (Int.le_of_lt items.1.offset) (Int.le_refl _)
  | .ret _ _ _ _ => .nil _ _
  | .brk _ _ _ => .nil _ _
  | .cont _ _ _ => .nil _ _
  | .inject _ _ => .nil _ _

theorem Block.Lies.declared {p q : Pos} {b : Block} :
    b.Lies p q → Spread Pos.offset p.offset b.declared q.offset
  | .mk _ opens stmts _ closes _ =>
    stmts.declared.mono (Int.le_of_lt opens.offset) (Int.le_of_lt closes.offset)

theorem Stmt.LieIn.declared {p q : Pos} {ss : List Stmt} :
    Stmt.LieIn p ss q → Spread Pos.offset p.offset (Stmt.declaredIn ss) q.offset
  | .nil => .nil _ _
  | .cons first rest =>
    first.declared.append rest.declared (Int.le_of_lt first.passes.offset) rest.reaches.1

end

mutual

theorem Stmt.Lies.proper {p q : Pos} {s : Stmt} : s.Lies p q → s.Proper
  | .block b => b.proper
  | .branch _ _ yes => yes.proper
  | .branches _ _ yes _ alternative no => by
    rw [Stmt.Proper]
    exact ⟨yes.proper, alternative, no.proper⟩
  | .loop _ _ _ body => body.proper
  | .count _ _ _ _ _ _ body => body.proper
  | .each _ _ _ body => body.proper
  | .expr _ _ | .decl _ _ | .ret _ _ _ _ | .brk _ _ _ | .cont _ _ _ | .inject _ _ => by
    simp only [Stmt.Proper]

theorem Block.Lies.proper {p q : Pos} {b : Block} : b.Lies p q → b.Proper
  | .mk _ _ stmts _ _ _ => stmts.proper

theorem Stmt.LieIn.proper {p q : Pos} {ss : List Stmt} : Stmt.LieIn p ss q → Stmt.ProperAll ss
  | .nil => trivial
  | .cons first rest => ⟨first.proper, rest.proper⟩

end

/-! ### Functions of a file -/

def Item.funcs : Item → List FuncDecl
  | .func f => [f]
  | .var _ | .enum _ | .inject _ _ => []

mutual

/-- The functions and methods of a declaration, in the order of the text. -/
def Decl.funcs : Decl → List FuncDecl
  | .item i => i.funcs
  | .scope _ _ ds => Decl.funcsOf ds
  | .cls _ _ _ items => items.flatMap Item.funcs
  | .abstraction _ _ _ fs | .refurbish _ _ fs => fs
  | .includes _ _ _ _ | .assume _ _ _ | .attributeDef _ _ _ _ => []

def Decl.funcsOf : List Decl → List FuncDecl
  | [] => []
  | d :: ds => d.funcs ++ Decl.funcsOf ds

end

theorem Decl.funcsOf_eq (ds : List Decl) : Decl.funcsOf ds = ds.flatMap Decl.funcs := by
  induction ds with
  | nil => rfl
  | cons d ds ih => rw [Decl.funcsOf, ih, List.flatMap_cons]

def File.funcs (file : File) : List FuncDecl := Decl.funcsOf file.decls

def FuncDecl.offset (f : FuncDecl) : Int := f.info.span.start.offset

/-- Functions that lie one after the other between two places. -/
structure FuncsLie (p : Pos) (fs : List FuncDecl) (q : Pos) : Prop where
  spread : Spread FuncDecl.offset p.offset fs q.offset
  params : Spread Param.offset p.offset (fs.flatMap FuncDecl.params) q.offset
  lies : ∀ f ∈ fs, ∃ p' q', f.Lies p' q'

variable {p q : Pos} {fs : List FuncDecl}

namespace FuncsLie

theorem nil (p q : Pos) : FuncsLie p [] q := ⟨.nil _ _, .nil _ _, by simp⟩

theorem mono {p p' q q' : Pos} (h : FuncsLie p fs q) (low : p'.Reaches p)
    (high : q.Reaches q') : FuncsLie p' fs q' :=
  ⟨h.spread.mono low.1 high.1, h.params.mono low.1 high.1, h.lies⟩

theorem append {p m q : Pos} {fs gs : List FuncDecl} (h : FuncsLie p fs m) (h' : FuncsLie m gs q)
    (low : p.Reaches m) (high : m.Reaches q) : FuncsLie p (fs ++ gs) q := by
  refine ⟨h.spread.append h'.spread low.1 high.1, ?_,
    fun f member => (List.mem_append.mp member).elim (h.lies f) (h'.lies f)⟩
  rw [List.flatMap_append]
  exact h.params.append h'.params low.1 high.1

theorem single {p m q : Pos} {f : FuncDecl} (reaches : p.Reaches m) (lies : f.Lies m q) :
    FuncsLie p [f] q := by
  have start : f.offset = m.offset := by rw [FuncDecl.offset, lies.info.start]
  refine ⟨Spread.mono (.single ?_) ?_ (Int.le_refl q.offset), ?_, by simpa using ⟨m, q, lies⟩⟩
  · rw [start]
    exact lies.room.offset
  · rw [start]
    exact reaches.1
  · rw [List.flatMap_singleton]
    exact lies.places.mono reaches.1 (Int.le_refl _)

theorem chain
    (h : Chain (fun p f q => ∃ p', p.Reaches p' ∧ f.Lies p' q) p fs q) : FuncsLie p fs q := by
  induction h with
  | nil => exact .nil _ _
  | cons first rest ih =>
    obtain ⟨m, reaches, lies⟩ := first
    refine (single reaches lies).append ih (reaches.trans lies.room.reaches) (rest.reaches ?_)
    rintro p f q ⟨m, reaches, lies⟩
    exact reaches.trans lies.room.reaches

end FuncsLie

theorem Item.Lies.reaches {i : Item} : i.Lies p q → p.Reaches q
  | .var reaches _ d => reaches.trans d.room.reaches
  | .func reaches f => reaches.trans f.room.reaches
  | .enum reaches d => reaches.trans d.room.reaches
  | .inject reaches _ room => reaches.trans room.reaches

theorem Item.Lies.funcs {i : Item} : i.Lies p q → FuncsLie p i.funcs q
  | .func reaches f => .single reaches f
  | .var _ _ _ | .enum _ _ | .inject _ _ _ => .nil _ _

theorem Chain.itemFuncs {items : List Item} (h : Chain Item.Lies p items q) :
    FuncsLie p (items.flatMap Item.funcs) q := by
  induction h with
  | nil => exact .nil _ _
  | cons first rest ih => exact first.funcs.append ih first.reaches (rest.reaches Item.Lies.reaches)

theorem FuncDecl.LieIn.funcs (h : FuncDecl.LieIn p fs q) :
    FuncsLie p fs q := by
  obtain ⟨m, m', opens, chain, closes⟩ := h
  exact (FuncsLie.chain chain).mono opens.reaches closes.reaches

theorem FuncDecl.LieIn.reaches (h : FuncDecl.LieIn p fs q) :
    p.Reaches q := by
  obtain ⟨m, m', opens, chain, closes⟩ := h
  refine (opens.reaches.trans (chain.reaches ?_)).trans closes.reaches
  rintro p f q ⟨m, reaches, lies⟩
  exact reaches.trans lies.room.reaches

mutual

theorem Decl.Lies.reaches {p q : Pos} {d : Decl} : d.Lies p q → p.Reaches q
  | .item i => i.reaches
  | .includes reaches _ room => reaches.trans room.reaches
  | .assume reaches _ room _ => reaches.trans room.reaches
  | .scope reaches _ _ opens inner _ closes =>
    ((reaches.trans opens.reaches).trans inner.reaches).trans closes.reaches
  | .cls reaches _ _ _ opens inner closes =>
    ((reaches.trans opens.reaches).trans (inner.reaches Item.Lies.reaches)).trans closes.reaches
  | .abstraction reaches _ _ _ opens inner => (reaches.trans opens.reaches).trans inner.reaches
  | .refurbish reaches _ _ opens inner => (reaches.trans opens.reaches).trans inner.reaches
  | .attributeDef reaches _ _ room => reaches.trans room.reaches

theorem Decl.LieIn.reaches {p q : Pos} {ds : List Decl} : Decl.LieIn p ds q → p.Reaches q
  | .nil => .refl _
  | .cons first rest => first.reaches.trans rest.reaches

end

mutual

theorem Decl.Lies.funcs {p q : Pos} {d : Decl} : d.Lies p q → FuncsLie p d.funcs q
  | .item i => i.funcs
  | .scope reaches _ _ opens inner _ closes =>
    inner.funcs.mono (reaches.trans opens.reaches) closes.reaches
  | .cls reaches _ _ _ opens inner closes =>
    inner.itemFuncs.mono (reaches.trans opens.reaches) closes.reaches
  | .abstraction reaches _ _ _ opens inner =>
    inner.funcs.mono (reaches.trans opens.reaches) (.refl _)
  | .refurbish reaches _ _ opens inner => inner.funcs.mono (reaches.trans opens.reaches) (.refl _)
  | .includes _ _ _ | .assume _ _ _ _ | .attributeDef _ _ _ _ => .nil _ _

theorem Decl.LieIn.funcs {p q : Pos} {ds : List Decl} :
    Decl.LieIn p ds q → FuncsLie p (Decl.funcsOf ds) q
  | .nil => .nil _ _
  | .cons first rest => first.funcs.append rest.funcs first.reaches rest.reaches

end

end TastyLang
