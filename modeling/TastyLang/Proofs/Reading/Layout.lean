import Mathlib.Algebra.Ring.Nat
import TastyLang.Proofs.Token.Order
import TastyLang.Syntax.Decl

/-!
# Where trees lie

`Stmt.Lies p s q` says that the statement `s` was read off the text between the places `p` and `q`,
where the next token starts: its parts follow one another, each starts where the text says it does,
its names take one line each, and there is room for the line breaks in its literals. The same for
blocks, functions and declarations. All that is proved about the order of a text rests on this.
-/

namespace TastyLang

/-- The second place is further on, at least `n` lines below the first. -/
structure Pos.Passes (p : Pos) (n : Nat) (q : Pos) : Prop where
  offset : p.offset < q.offset
  line : p.line + n ≤ q.line

theorem Pos.Passes.reaches {p q : Pos} {n : Nat} (h : p.Passes n q) : p.Reaches q := by
  obtain ⟨offset, line⟩ := h
  constructor <;> omega

theorem Pos.Passes.trans_reaches {p q r : Pos} {n : Nat} (h : p.Passes n q) (h' : q.Reaches r) :
    p.Passes n r := by
  obtain ⟨offset, line⟩ := h
  obtain ⟨offset', line'⟩ := h'
  constructor <;> omega

theorem Pos.Reaches.trans_passes {p q r : Pos} {n : Nat} (h : p.Reaches q) (h' : q.Passes n r) :
    p.Passes n r := by
  obtain ⟨offset, line⟩ := h
  obtain ⟨offset', line'⟩ := h'
  constructor <;> omega

theorem Pos.Passes.trans {p q r : Pos} {m n : Nat} (h : p.Passes m q) (h' : q.Passes n r) :
    p.Passes (m + n) r := by
  obtain ⟨offset, line⟩ := h
  obtain ⟨offset', line'⟩ := h'
  constructor <;> omega

theorem Pos.Passes.mono {p q : Pos} {m n : Nat} (h : p.Passes n q) (le : m ≤ n) :
    p.Passes m q := by
  obtain ⟨offset, line⟩ := h
  constructor <;> omega

/-! ### Things in a row -/

/-- Things whose places grow from `lo` on and stay below `hi`. -/
structure Spread {α : Type} (place : α → Int) (lo : Int) (xs : List α) (hi : Int) : Prop where
  sorted : xs.Pairwise (place · < place ·)
  inside : ∀ x ∈ xs, lo ≤ place x ∧ place x < hi

namespace Spread

variable {α : Type} {place : α → Int}

theorem nil (lo hi : Int) : Spread place lo [] hi := ⟨.nil, by simp⟩

theorem single {x : α} {hi : Int} (h : place x < hi) : Spread place (place x) [x] hi :=
  ⟨List.pairwise_singleton _ _, by simpa using h⟩

theorem mono {lo lo' hi hi' : Int} {xs : List α} (h : Spread place lo xs hi) (low : lo' ≤ lo)
    (high : hi ≤ hi') : Spread place lo' xs hi' :=
  ⟨h.sorted, fun x member => by have := h.inside x member; omega⟩

theorem append {lo mid hi : Int} {xs ys : List α} (h : Spread place lo xs mid)
    (h' : Spread place mid ys hi) (low : lo ≤ mid) (high : mid ≤ hi) :
    Spread place lo (xs ++ ys) hi := by
  refine ⟨List.pairwise_append.mpr ⟨h.sorted, h'.sorted, ?_⟩, ?_⟩
  · intro x left y right
    have := h.inside x left
    have := h'.inside y right
    omega
  · intro x member
    rcases List.mem_append.mp member with member | member
    · have := h.inside x member
      omega
    · have := h'.inside x member
      omega

theorem map {lo hi : Int} {xs : List α} (h : Spread place lo xs hi) (f : α → α)
    (same : ∀ x, place (f x) = place x) : Spread place lo (xs.map f) hi := by
  refine ⟨List.pairwise_map.mpr ?_, fun x member => ?_⟩
  · simpa only [same] using h.sorted
  · obtain ⟨y, inside, rfl⟩ := List.mem_map.mp member
    rw [same]
    exact h.inside y inside

theorem nodup {lo hi : Int} {xs : List α} (h : Spread place lo xs hi) : xs.Nodup :=
  h.sorted.imp fun lt same => by rw [same] at lt; omega

theorem inj {lo hi : Int} {xs : List α} (h : Spread place lo xs hi) {x y : α} (left : x ∈ xs)
    (right : y ∈ xs) (same : place x = place y) : x = y := by
  have apart : xs.Pairwise fun x y => place x = place y → x = y :=
    h.sorted.imp fun lt same => absurd same (Int.ne_of_lt lt)
  have apart' : xs.Pairwise (flip fun x y => place x = place y → x = y) :=
    h.sorted.imp fun lt same => absurd same.symm (Int.ne_of_lt lt)
  exact List.Pairwise.forall_of_forall_of_flip (fun _ _ _ => rfl) apart apart' left right same

end Spread

/-! ### Types and expressions -/

mutual

/-- Every name in the type takes one line. -/
def TypeExpr.Flat : TypeExpr → Prop
  | .named _ name args _ => Text.OneLine name ∧ TypeExpr.FlatAll args
  | .tuple _ elems _ => TypeExpr.FlatAll elems
  | .func _ params none _ => TypeExpr.FlatAll params
  | .func _ params (some result) _ => TypeExpr.FlatAll params ∧ result.Flat

def TypeExpr.FlatAll : List TypeExpr → Prop
  | [] => True
  | t :: ts => t.Flat ∧ TypeExpr.FlatAll ts

end

mutual

/-- How many lines the literals in an expression end. -/
def Expr.breaks : Expr → Nat
  | .literal _ _ value => Text.breaks value
  | .ident _ _ | .self _ => 0
  | .binary _ _ l r | .range _ l r | .index _ l r => l.breaks + r.breaks
  | .unary _ _ x _ | .member _ x _ _ | .delete _ x | .cast _ x _ _ | .tupleIndex _ x _
  | .paren _ x => x.breaks
  | .call _ fn args => fn.breaks + Expr.breaksIn args
  | .new _ _ args | .tuple _ args => Expr.breaksIn args
  | .ternary _ c y n => c.breaks + y.breaks + n.breaks

def Expr.breaksIn : List Expr → Nat
  | [] => 0
  | e :: es => e.breaks + Expr.breaksIn es

end

def Expr.breaksOf (e : Option Expr) : Nat := (e.map Expr.breaks).getD 0

mutual

/-- Every name in the expression takes one line. -/
def Expr.Flat : Expr → Prop
  | .literal _ _ _ | .self _ => True
  | .ident _ name => Text.OneLine name
  | .binary _ _ l r | .range _ l r | .index _ l r => l.Flat ∧ r.Flat
  | .unary _ _ x _ | .delete _ x | .tupleIndex _ x _ | .paren _ x => x.Flat
  | .member _ x name _ => x.Flat ∧ Text.OneLine name
  | .cast _ x _ type => x.Flat ∧ type.Flat
  | .call _ fn args => fn.Flat ∧ Expr.FlatAll args
  | .new _ type args => type.Flat ∧ Expr.FlatAll args
  | .tuple _ args => Expr.FlatAll args
  | .ternary _ c y n => c.Flat ∧ y.Flat ∧ n.Flat

def Expr.FlatAll : List Expr → Prop
  | [] => True
  | e :: es => e.Flat ∧ Expr.FlatAll es

end

theorem TypeExpr.flatAll_iff {ts : List TypeExpr} : TypeExpr.FlatAll ts ↔ ∀ t ∈ ts, t.Flat := by
  induction ts with
  | nil => simp [TypeExpr.FlatAll]
  | cons t ts ih => simp [TypeExpr.FlatAll, ih]

theorem Expr.flatAll_iff {es : List Expr} : Expr.FlatAll es ↔ ∀ e ∈ es, e.Flat := by
  induction es with
  | nil => simp [Expr.FlatAll]
  | cons e es ih => simp [Expr.FlatAll, ih]

theorem Expr.breaksIn_eq (es : List Expr) : Expr.breaksIn es = (es.map Expr.breaks).sum := by
  induction es with
  | nil => rfl
  | cons e es ih => simp [Expr.breaksIn, ih]

/-- An expression read off the text from `p` to `q`. -/
abbrev Expr.Lies (p : Pos) (e : Expr) (q : Pos) : Prop := p.Passes e.breaks q ∧ e.Flat

/-! ### Statements -/

/-- A variable read off the text from `p` to `q`. -/
structure VarDecl.Lies (p : Pos) (d : VarDecl) (q : Pos) : Prop where
  start : d.info.span.start = p
  room : p.Passes (Expr.breaksOf d.value) q
  name : Text.OneLine d.name
  type : ∀ t, d.type = some t → t.Flat
  value : ∀ v, d.value = some v → v.Flat

/-- A statement that may follow `else`. -/
def Stmt.isAlternative : Stmt → Bool
  | .block _ | .branch _ _ _ _ _ => true
  | _ => false

/-- The names of the pointers that an exit deletes take one line. -/
def Exit.Flat (exit : Option Exit) : Prop :=
  ∀ x, exit = some x → ∀ o ∈ x.deletes, Text.OneLine o.name

theorem Exit.flat_none : Exit.Flat none := by
  rintro _ ⟨⟩

mutual

inductive Stmt.Lies : Pos → Stmt → Pos → Prop where
  | block {p q b} : Block.Lies p b q → Stmt.Lies p (.block b) q
  | expr {p q span x} : span.start = p → x.Lies p q → Stmt.Lies p (.expr span x) q
  | decl {p q span d} : span.start = p → d.Lies p q → Stmt.Lies p (.decl span d) q
  | branch {p m q span negate cond yes} :
      span.start = p → cond.Lies p m → Block.Lies m yes q →
      Stmt.Lies p (.branch span negate cond yes none) q
  | branches {p m m' p' q span negate cond yes no} :
      span.start = p → cond.Lies p m → Block.Lies m yes m' →
      m'.Passes 0 p' → no.isAlternative = true → Stmt.Lies p' no q →
      Stmt.Lies p (.branch span negate cond yes (some no)) q
  | loop {p m q span negate cond body} :
      span.start = p → p.Passes (Expr.breaksOf cond) m → (∀ e, cond = some e → e.Flat) →
      Block.Lies m body q →
      Stmt.Lies p (.loop span negate cond body) q
  | count {p m q span kind name low high step body} :
      span.start = p → Text.OneLine name →
      p.Passes (low.breaks + high.breaks + Expr.breaksOf step) m →
      low.Flat → high.Flat → (∀ e, step = some e → e.Flat) → Block.Lies m body q →
      Stmt.Lies p (.count span kind name low high step body) q
  | each {p m q span name storage items body} :
      span.start = p → Text.OneLine name → items.Lies p m → Block.Lies m body q →
      Stmt.Lies p (.each span name storage items body) q
  | ret {p q span value implicit effect exit} :
      span.start = p → p.Passes (Expr.breaksOf value) q → (∀ e, value = some e → e.Flat) →
      Exit.Flat exit → Stmt.Lies p (.ret span value implicit effect exit) q
  | brk {p q span exit} :
      span.start = p → p.Passes 0 q → Exit.Flat exit → Stmt.Lies p (.brk span exit) q
  | cont {p q span exit} :
      span.start = p → p.Passes 0 q → Exit.Flat exit → Stmt.Lies p (.cont span exit) q
  | inject {p q span text} :
      span.start = p → p.Passes (Text.breaks text) q → Stmt.Lies p (.inject span text) q

/-- The statements of a block lie between its braces; `m'` is where the closing one stands. -/
inductive Block.Lies : Pos → Block → Pos → Prop where
  | mk {p m m' q span ss owned} :
      span.start = p → p.Passes 0 m → Stmt.LieIn m ss m' → span.stop.line = m'.line →
      m'.Passes 0 q → (∀ o ∈ owned, Text.OneLine o.name) →
      Block.Lies p (.mk span ss owned) q

inductive Stmt.LieIn : Pos → List Stmt → Pos → Prop where
  | nil {p} : Stmt.LieIn p [] p
  | cons {p m q s ss} : Stmt.Lies p s m → Stmt.LieIn m ss q → Stmt.LieIn p (s :: ss) q

end

mutual

theorem Stmt.Lies.passes {p q : Pos} {s : Stmt} : s.Lies p q → p.Passes 0 q
  | .block b => b.passes
  | .expr _ x => x.1.mono (Nat.zero_le _)
  | .decl _ d => d.room.mono (Nat.zero_le _)
  | .branch _ cond yes => (cond.1.mono (Nat.zero_le _)).trans yes.passes
  | .branches _ cond yes word _ no =>
    (((cond.1.mono (Nat.zero_le _)).trans yes.passes).trans word).trans no.passes
  | .loop _ room _ body => (room.mono (Nat.zero_le _)).trans body.passes
  | .count _ _ room _ _ _ body => (room.mono (Nat.zero_le _)).trans body.passes
  | .each _ _ items body => (items.1.mono (Nat.zero_le _)).trans body.passes
  | .ret _ room _ _ => room.mono (Nat.zero_le _)
  | .brk _ room _ => room
  | .cont _ room _ => room
  | .inject _ room => room.mono (Nat.zero_le _)

theorem Block.Lies.passes {p q : Pos} {b : Block} : b.Lies p q → p.Passes 0 q
  | .mk _ opens stmts _ closes _ => (opens.trans_reaches stmts.reaches).trans closes

theorem Stmt.LieIn.reaches {p q : Pos} {ss : List Stmt} : Stmt.LieIn p ss q → p.Reaches q
  | .nil => .refl _
  | .cons first rest => first.passes.reaches.trans rest.reaches

end

/-! ### Declarations -/

/-- Things that follow one another in the text. -/
inductive Chain {α : Type} (lies : Pos → α → Pos → Prop) : Pos → List α → Pos → Prop where
  | nil {p} : Chain lies p [] p
  | cons {p m q x xs} : lies p x m → Chain lies m xs q → Chain lies p (x :: xs) q

theorem Chain.reaches {α : Type} {lies : Pos → α → Pos → Prop}
    (each : ∀ {p x q}, lies p x q → p.Reaches q) {p q : Pos} {xs : List α}
    (h : Chain lies p xs q) : p.Reaches q := by
  induction h with
  | nil => exact .refl _
  | cons first _ ih => exact (each first).trans ih

theorem Chain.each {α : Type} {lies : Pos → α → Pos → Prop} {p q : Pos} {xs : List α}
    (h : Chain lies p xs q) {x : α} (member : x ∈ xs) : ∃ p q, lies p x q := by
  induction h with
  | nil => cases member
  | cons first _ ih =>
    rcases List.mem_cons.mp member with rfl | member
    · exact ⟨_, _, first⟩
    · exact ih member

theorem Chain.spread {α : Type} {lies : Pos → α → Pos → Prop} {place : α → Int}
    (each : ∀ {p x q}, lies p x q → place x = p.offset ∧ p.Passes 0 q) {p q : Pos} {xs : List α}
    (h : Chain lies p xs q) : Spread place p.offset xs q.offset := by
  induction h with
  | nil => exact .nil _ _
  | @cons p m q x xs first rest ih =>
    obtain ⟨here, moves⟩ := each first
    have one : Spread place p.offset [x] m.offset := by
      rw [← here]
      exact .single (here ▸ moves.offset)
    refine one.append ih (Int.le_of_lt moves.offset) ?_
    exact (rest.reaches fun h => (each h).2.reaches).1

theorem Chain.passes {α : Type} {lies : Pos → α → Pos → Prop} {size : α → Nat}
    (each : ∀ {p x q}, lies p x q → p.Passes (size x) q) {p m q : Pos} {xs : List α}
    (h : Chain lies p xs m) (last : m.Passes 0 q) : p.Passes (xs.map size).sum q := by
  induction h with
  | nil => exact last
  | cons first _ ih =>
    rw [List.map_cons, List.sum_cons]
    exact (each first).trans (ih last)

theorem Chain.stmts {p q : Pos} {ss : List Stmt} (h : Chain Stmt.Lies p ss q) :
    Stmt.LieIn p ss q := by
  induction h with
  | nil => exact .nil
  | cons first _ ih => exact .cons first ih

/-- Nothing is generated around a declaration, and the header may show it. -/
structure Generated.Bare (g : Generated) : Prop where
  append : g.append = []
  prepend : g.prepend = []
  shown : g.noHeader = false

theorem Generated.Bare.empty : Generated.Bare {} := ⟨rfl, rfl, rfl⟩

/-- What a declaration says about itself, read from `p` on. -/
structure DeclInfo.Lies (p : Pos) (i : DeclInfo) : Prop where
  start : i.span.start = p
  bare : i.generated.Bare

structure Param.Flat (q : Param) : Prop where
  name : Text.OneLine q.name
  type : q.type.Flat
  value : ∀ v, q.value = some v → v.Flat

def Param.breaksIn (qs : List Param) : Nat := (qs.map fun q => Expr.breaksOf q.value).sum

def Param.offset (q : Param) : Int := q.span.start.offset

/-- A function read off the text from `p` to `q`; a body follows the parameters. -/
structure FuncDecl.Lies (p : Pos) (f : FuncDecl) (q : Pos) : Prop where
  info : f.info.Lies p
  places : Spread Param.offset p.offset f.params q.offset
  room : p.Passes (Param.breaksIn f.params) q
  name : Text.OneLine f.name
  symbol : ∀ s, f.kind = .operator s → Text.OneLine s
  params : ∀ x ∈ f.params, x.Flat
  result : ∀ t, f.result = some t → t.Flat
  body : ∀ b, f.body = some b → ∃ m, p.Passes (Param.breaksIn f.params) m ∧ b.Lies m q

structure EnumMember.Flat (m : EnumMember) : Prop where
  name : Text.OneLine m.name
  value : ∀ v, m.value = some v → v.Flat

structure EnumDecl.Lies (p : Pos) (d : EnumDecl) (q : Pos) : Prop where
  info : d.info.Lies p
  room : p.Passes 0 q
  name : Text.OneLine d.name
  members : ∀ m ∈ d.members, m.Flat

/-- An item read off the text from `p` to `q`, with its attributes. -/
inductive Item.Lies : Pos → Item → Pos → Prop where
  | var {p m q d} : p.Reaches m → d.info.Lies m → d.Lies m q → Item.Lies p (.var d) q
  | func {p m q f} : p.Reaches m → f.Lies m q → Item.Lies p (.func f) q
  | enum {p m q d} : p.Reaches m → d.Lies m q → Item.Lies p (.enum d) q
  | inject {p m q info text} :
      p.Reaches m → info.Lies m → m.Passes 0 q → Item.Lies p (.inject info text) q

/-- Functions in braces, read from the opening brace at `p` to `q`. -/
def FuncDecl.LieIn (p : Pos) (fs : List FuncDecl) (q : Pos) : Prop :=
  ∃ m m', p.Passes 0 m ∧
    Chain (fun p f q => ∃ p', p.Reaches p' ∧ f.Lies p' q) m fs m' ∧ m'.Passes 0 q

mutual

/-- A declaration read off the text from `p` to `q`, with its attributes. -/
inductive Decl.Lies : Pos → Decl → Pos → Prop where
  | item {p q i} : i.Lies p q → Decl.Lies p (.item i) q
  | includes {p m q info kind path isLocal} : p.Reaches m → info.Lies m → m.Passes 0 q →
      Decl.Lies p (.includes info kind path isLocal) q
  | assume {p m q info name kind} : p.Reaches m → info.Lies m → m.Passes 0 q →
      Text.OneLine name → Decl.Lies p (.assume info name kind) q
  | scope {p m m' m'' q info name ds} : p.Reaches m → info.Lies m → Text.OneLine name →
      m.Passes 0 m' → Decl.LieIn m' ds m'' → info.span.stop.line = m''.line → m''.Passes 0 q →
      Decl.Lies p (.scope info name ds) q
  | cls {p m m' m'' q info name bases items} : p.Reaches m → info.Lies m → Text.OneLine name →
      TypeExpr.FlatAll bases → m.Passes 0 m' → Chain Item.Lies m' items m'' → m''.Passes 0 q →
      Decl.Lies p (.cls info name bases items) q
  | abstraction {p m m' q info name target fs} : p.Reaches m → info.Lies m → Text.OneLine name →
      target.Flat → m.Passes 0 m' → FuncDecl.LieIn m' fs q →
      Decl.Lies p (.abstraction info name target fs) q
  | refurbish {p m m' q info target fs} : p.Reaches m → info.Lies m → target.Flat →
      m.Passes 0 m' → FuncDecl.LieIn m' fs q →
      Decl.Lies p (.refurbish info target fs) q
  | attributeDef {p m q info name params directives} : p.Reaches m → info.Lies m →
      Text.OneLine name → m.Passes 0 q →
      Decl.Lies p (.attributeDef info name params directives) q

inductive Decl.LieIn : Pos → List Decl → Pos → Prop where
  | nil {p} : Decl.LieIn p [] p
  | cons {p m q d ds} : Decl.Lies p d m → Decl.LieIn m ds q → Decl.LieIn p (d :: ds) q

end

theorem Chain.decls {p q : Pos} {ds : List Decl} (h : Chain Decl.Lies p ds q) :
    Decl.LieIn p ds q := by
  induction h with
  | nil => exact .nil
  | cons first _ ih => exact .cons first ih

end TastyLang
