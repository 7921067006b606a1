import TastyLang.Compilation.Basic
import TastyLang.Proofs.Reading.Places
import TastyLang.Proofs.Reading.Stretches
import TastyLang.Proofs.Resolution.Bodies

/-!
# What compiling leaves in place

Settling storage and ownership moves nothing, expanding attributes does nothing where there are no
uses of them, and what classes inherit is noted without moving them. So the declarations of an
analysis without attributes lie in the text as they were read (`analyze_lies`).
-/

namespace TastyLang

/-! ### Settling -/

variable {p q : Pos}

namespace Ownership

theorem settleStmt_isAlternative (c : Context) (l : Ledger) {s : Stmt}
    (h : s.isAlternative = true) : (settleStmt c s l).1.isAlternative = true := by
  cases s with
  | block b => rfl
  | branch span negate cond yes no => cases no <;> rfl
  | _ => cases h

/-- The names of the pointers that the open blocks made take one line. -/
def Ledger.Tidy (l : Ledger) : Prop := ∀ f ∈ l.frames, ∀ o ∈ f.vars, Text.OneLine o.name

variable {l : Ledger}

theorem Ledger.Tidy.extend (tidy : l.Tidy) {os : List Owned} (flat : ∀ o ∈ os, Text.OneLine o.name)
    (released : List Pos) :
    Ledger.Tidy ⟨extend os l.frames, released⟩ := by
  obtain ⟨frames, _⟩ := l
  cases frames with
  | nil => exact tidy
  | cons f fs =>
    obtain ⟨first, rest⟩ := List.forall_mem_cons.mp tidy
    refine List.forall_mem_cons.mpr ⟨fun o made => ?_, rest⟩
    rcases List.mem_append.mp made with made | made
    · exact first o made
    · exact flat o made

theorem makes_flat {s : Stmt} (lies : s.Lies p q) :
    ∀ o ∈ s.makes, Text.OneLine o.name := by
  intro o made
  cases lies with
  | decl start d =>
    rw [(made?_eq (Option.mem_toList.mp made)).1]
    exact d.name
  | _ => cases made

theorem Ledger.Tidy.release {c : Context} {e : Expr} (tidy : l.Tidy) :
    (release c e l).2.Tidy := tidy

theorem Ledger.Tidy.releaseIn {c : Context} {e : Option Expr} (tidy : l.Tidy) :
    (releaseIn c e l).2.Tidy := by
  rw [releaseIn_ledger]
  exact tidy

theorem Ledger.Tidy.settleStmt (c : Context) (tidy : l.Tidy) {s : Stmt}
    (lies : s.Lies p q) : (settleStmt c s l).2.Tidy := by
  rw [settleStmt_ledger c _ _ lies.proper]
  exact tidy.extend (makes_flat lies) _

theorem Ledger.Tidy.settleBlock (c : Context) (loop : Bool) (tidy : l.Tidy) {b : Block}
    (lies : b.Lies p q) : (settleBlock c loop b l).2.Tidy := by
  rw [settleBlock_ledger c _ _ _ lies.proper]
  exact tidy

theorem Ledger.Tidy.settleStmts (c : Context) (tidy : l.Tidy) {ss : List Stmt}
    (lie : Stmt.LieIn p ss q) : (settleStmts c ss l).2.Tidy := by
  induction ss generalizing l p with
  | nil => exact tidy
  | cons s ss ih =>
    cases lie with
    | cons first rest => exact ih (tidy.settleStmt c first) rest

theorem closeFrame_flat (tidy : l.Tidy) :
    ∀ o ∈ (closeFrame l).1, Text.OneLine o.name := by
  obtain ⟨frames, released⟩ := l
  intro o member
  cases frames with
  | nil => cases member
  | cons f fs => exact tidy f List.mem_cons_self o (List.mem_filter.mp member).1

theorem exitOf_flat (tidy : l.Tidy) (c : Context) (value : Option Expr) (kept : Option Pos)
    (toLoop : Bool) : Exit.Flat (exitOf c value kept toLoop l).1 := by
  intro x has o member
  have due : o ∈ deletesAt (exitOf c value kept toLoop l).1 := by
    rw [has]
    exact member
  rw [(exitOf_apply c value kept toLoop l).1] at due
  obtain ⟨f, inside, made⟩ := mem_deletes due
  exact tidy f inside o made

mutual

theorem settleStmt_lies (c : Context) {l : Ledger} {p q : Pos} {s : Stmt} (tidy : l.Tidy) :
    s.Lies p q → (settleStmt c s l).1.Lies p q
  | .block b => .block (settleBlock_lies c false tidy b)
  | .expr start x => .expr start x
  | .decl start d => by
    rw [settleStmt_decl]
    exact .decl start d
  | .branch start cond yes => .branch start cond (settleBlock_lies c false tidy yes)
  | .branches start cond yes word alternative no =>
    .branches start cond (settleBlock_lies c false tidy yes) word
      (settleStmt_isAlternative c _ alternative)
      (settleStmt_lies c (tidy.release.settleBlock c false yes) no)
  | .loop start room flat body =>
    .loop start room flat (settleBlock_lies c true tidy.releaseIn body)
  | .count start name room low high step body =>
    .count start name room low high step
      (settleBlock_lies c true tidy.release.release.releaseIn body)
  | .each start name items body => .each start name items (settleBlock_lies c true tidy body)
  | .ret start room flat _ => by
    rw [settleStmt_ret]
    split
    · exact .ret start room flat Exit.flat_none
    · exact .ret start room flat (exitOf_flat tidy.releaseIn c _ _ false)
  | .brk start room _ => .brk start room (exitOf_flat tidy c none none true)
  | .cont start room _ => .cont start room (exitOf_flat tidy c none none true)
  | .inject start room => .inject start room

theorem settleBlock_lies (c : Context) (loop : Bool) {l : Ledger} {p q : Pos} {b : Block}
    (tidy : l.Tidy) : b.Lies p q → (settleBlock c loop b l).1.Lies p q
  | .mk start opens stmts stop closes _ => by
    have inside : Ledger.Tidy ⟨{ loop } :: l.frames, l.released⟩ :=
      List.forall_mem_cons.mpr ⟨by simp, tidy⟩
    have owned := closeFrame_flat (inside.settleStmts c stmts)
    refine .mk start opens (settleStmts_lie c inside stmts) stop closes fun o member => ?_
    split at member
    · cases member
    · exact owned o member

theorem settleStmts_lie (c : Context) {l : Ledger} {p q : Pos} {ss : List Stmt} (tidy : l.Tidy) :
    Stmt.LieIn p ss q → Stmt.LieIn p (settleStmts c ss l).1 q
  | .nil => .nil
  | .cons first rest =>
    .cons (settleStmt_lies c tidy first) (settleStmts_lie c (tidy.settleStmt c first) rest)

end

end Ownership

open Ownership

theorem FuncDecl.Lies.settle {f : FuncDecl} (h : f.Lies p q) (info : Info)
    (atTop : Bool) : (f.settle info atTop).Lies p q := by
  have same : Param.breaksIn (f.settle info atTop).params = Param.breaksIn f.params := by
    unfold Param.breaksIn FuncDecl.settle
    rw [List.map_map]
    rfl
  obtain ⟨own, places, room, name, symbol, params, result, body⟩ := h
  refine ⟨own, ?_, same ▸ room, name, symbol, ?_, result, ?_⟩
  · exact places.map _ fun _ => rfl
  · intro x member
    obtain ⟨y, inside, rfl⟩ := List.mem_map.mp member
    obtain ⟨name, type, value⟩ := params y inside
    exact ⟨name, type, value⟩
  · intro b' settled
    obtain ⟨b, has, rfl⟩ := Option.map_eq_some_iff.mp settled
    obtain ⟨m, head, lies⟩ := body b has
    exact ⟨m, same ▸ head, settleBlock_lies _ false (by simp [Ledger.Tidy]) lies⟩

theorem Item.Lies.settle {i : Item} (info : Info) (atTop : Bool) :
    i.Lies p q → (i.settle info atTop).Lies p q
  | .func reaches f => .func reaches (f.settle info atTop)
  | .var reaches own d => .var reaches own d
  | .enum reaches d => .enum reaches d
  | .inject reaches own room => .inject reaches own room

theorem Chain.map {α : Type} {lies : Pos → α → Pos → Prop} {f : α → α}
    (each : ∀ {p x q}, lies p x q → lies p (f x) q) {xs : List α}
    (h : Chain lies p xs q) : Chain lies p (xs.map f) q := by
  induction h with
  | nil => exact .nil
  | cons first _ ih => exact .cons (each first) ih

theorem FuncDecl.LieIn.settle {fs : List FuncDecl} (h : FuncDecl.LieIn p fs q) (info : Info)
    (atTop : Bool) : FuncDecl.LieIn p (fs.map (FuncDecl.settle info atTop)) q := by
  obtain ⟨m, m', opens, chain, closes⟩ := h
  refine ⟨m, m', opens, chain.map ?_, closes⟩
  rintro p f q ⟨p', reaches, lies⟩
  exact ⟨p', reaches, lies.settle info atTop⟩

mutual

theorem Decl.Lies.settle {p q : Pos} {d : Decl} (info : Info) {atTop : Bool} :
    d.Lies p q → (d.settle info atTop).Lies p q
  | .item i => .item (i.settle info atTop)
  | .includes reaches own room => .includes reaches own room
  | .assume reaches own room name => .assume reaches own room name
  | .scope reaches own name opens inner stop closes =>
    .scope reaches own name opens (inner.settle info) stop closes
  | .cls reaches own name flat opens inner closes =>
    .cls reaches own name flat opens (inner.map (·.settle info false)) closes
  | .abstraction reaches own name flat opens inner =>
    .abstraction reaches own name flat opens (inner.settle info false)
  | .refurbish reaches own flat opens inner =>
    .refurbish reaches own flat opens (inner.settle info atTop)
  | .attributeDef reaches own name room => .attributeDef reaches own name room

theorem Decl.LieIn.settle {p q : Pos} {ds : List Decl} (info : Info) {atTop : Bool} :
    Decl.LieIn p ds q → Decl.LieIn p (Decl.settleAll info atTop ds) q
  | .nil => .nil
  | .cons first rest => .cons (first.settle info) (rest.settle info)

end

/-! ### Attributes -/

mutual

/-- The uses of attributes in a declaration. -/
def Decl.uses : Decl → List AttributeUse
  | .item i => i.info.attrs
  | .scope i _ ds => i.attrs ++ Decl.usesIn ds
  | .cls i _ _ items => i.attrs ++ items.flatMap (·.info.attrs)
  | .abstraction i _ _ fs | .refurbish i _ fs => i.attrs ++ fs.flatMap (·.info.attrs)
  | .includes i _ _ _ | .assume i _ _ | .attributeDef i _ _ _ => i.attrs

def Decl.usesIn : List Decl → List AttributeUse
  | [] => []
  | d :: ds => d.uses ++ Decl.usesIn ds

end

def File.uses (file : File) : List AttributeUse := Decl.usesIn file.decls

namespace Attribute

theorem expandInfo_eq {defs : List Definition} {i i' : DeclInfo} (h : expandInfo defs i = .ok i')
    (bare : i'.attrs = []) : i' = i := by
  obtain ⟨fxs, effects, h⟩ := except_bind_ok h
  cases h
  have none_ : i.attrs = [] := bare
  rw [none_] at effects
  cases effects
  obtain ⟨span, attrs, modifiers, append, prepend, noHeader, includes, inherited⟩ := i
  simp [generate]

theorem expandItem_eq {defs : List Definition} {i i' : Item} (h : expandItem defs i = .ok i')
    (bare : i'.info.attrs = []) : i' = i := by
  obtain ⟨info, expanded, h⟩ := except_bind_ok h
  cases h
  cases i with
  | var d => rw [Item.withInfo, expandInfo_eq expanded bare]; rfl
  | func d => rw [Item.withInfo, expandInfo_eq expanded bare]; rfl
  | enum d => rw [Item.withInfo, expandInfo_eq expanded bare]; rfl
  | inject own text => rw [Item.withInfo, expandInfo_eq expanded bare]; rfl

theorem expandItems_eq {defs : List Definition} {items items' : List Item}
    (h : items.mapM (expandItem defs) = .ok items')
    (bare : items'.flatMap (·.info.attrs) = []) : items' = items := by
  induction items generalizing items' with
  | nil =>
    cases h
    rfl
  | cons i items ih =>
    rw [List.mapM_cons] at h
    obtain ⟨i', first, h⟩ := except_bind_ok h
    obtain ⟨is, rest, h⟩ := except_bind_ok h
    cases h
    rw [List.flatMap_cons, List.append_eq_nil_iff] at bare
    rw [expandItem_eq first bare.1, ih rest bare.2]

mutual

theorem expandDecl_eq {defs : List Definition} : {d d' : Decl} → expandDecl defs d = .ok d' →
    d'.uses = [] → d' = d
  | .item i, d', h, bare => by
    obtain ⟨i', expanded, h⟩ := except_bind_ok h
    cases h
    rw [expandItem_eq expanded bare]
  | .scope own name ds, d', h, bare => by
    obtain ⟨own', expanded, h⟩ := except_bind_ok h
    obtain ⟨ds', inner, h⟩ := except_bind_ok h
    cases h
    rw [Decl.uses, List.append_eq_nil_iff] at bare
    rw [expandInfo_eq expanded bare.1, expandDecls_eq inner bare.2]
  | .cls own name bases items, d', h, bare => by
    obtain ⟨own', expanded, h⟩ := except_bind_ok h
    obtain ⟨items', inner, h⟩ := except_bind_ok h
    cases h
    rw [Decl.uses, List.append_eq_nil_iff] at bare
    rw [expandInfo_eq expanded bare.1, expandItems_eq inner bare.2]
  | .abstraction own name target fs, d', h, bare => by
    obtain ⟨own', expanded, h⟩ := except_bind_ok h
    cases h
    rw [Decl.withInfo, Decl.uses, List.append_eq_nil_iff] at bare
    rw [Decl.withInfo, expandInfo_eq expanded bare.1]
    rfl
  | .refurbish own target fs, d', h, bare => by
    obtain ⟨own', expanded, h⟩ := except_bind_ok h
    cases h
    rw [Decl.withInfo, Decl.uses, List.append_eq_nil_iff] at bare
    rw [Decl.withInfo, expandInfo_eq expanded bare.1]
    rfl
  | .includes own kind path isLocal, d', h, bare => by
    obtain ⟨own', expanded, h⟩ := except_bind_ok h
    cases h
    rw [Decl.withInfo, expandInfo_eq expanded bare]
    rfl
  | .assume own name kind, d', h, bare => by
    obtain ⟨own', expanded, h⟩ := except_bind_ok h
    cases h
    rw [Decl.withInfo, expandInfo_eq expanded bare]
    rfl
  | .attributeDef own name params directives, d', h, _ => by
    cases h
    rfl

theorem expandDecls_eq {defs : List Definition} : {ds ds' : List Decl} →
    expandDecls defs ds = .ok ds' → Decl.usesIn ds' = [] → ds' = ds
  | [], ds', h, _ => by
    cases h
    rfl
  | d :: ds, ds', h, bare => by
    obtain ⟨d', first, h⟩ := except_bind_ok h
    obtain ⟨rest, later, h⟩ := except_bind_ok h
    cases h
    rw [Decl.usesIn, List.append_eq_nil_iff] at bare
    rw [expandDecl_eq first bare.1, expandDecls_eq later bare.2]

end

mutual

theorem inheritDecl_uses (known : List (Span × List String)) :
    (d : Decl) → (inheritDecl known d).uses = d.uses
  | .scope own name ds => by
    rw [inheritDecl, Decl.uses, Decl.uses, inheritDecls_uses known ds]
  | .cls _ _ _ _ | .item _ | .includes _ _ _ _ | .assume _ _ _ | .abstraction _ _ _ _
  | .refurbish _ _ _ | .attributeDef _ _ _ _ => rfl

theorem inheritDecls_uses (known : List (Span × List String)) :
    (ds : List Decl) → Decl.usesIn (inheritDecls known ds) = Decl.usesIn ds
  | [] => rfl
  | d :: ds => by
    rw [inheritDecls, Decl.usesIn, Decl.usesIn, inheritDecl_uses known d, inheritDecls_uses known ds]

end

mutual

theorem inheritDecl_lies (known : List (Span × List String)) {p q : Pos} {d : Decl} :
    d.Lies p q → (inheritDecl known d).Lies p q
  | .scope reaches own name opens inner stop closes =>
    .scope reaches own name opens (inheritDecls_lie known inner) stop closes
  | .cls reaches own name flat opens inner closes =>
    .cls reaches ⟨own.start, own.bare.append, own.bare.prepend, own.bare.shown⟩ name flat opens inner
      closes
  | .item i => .item i
  | .includes reaches own room => .includes reaches own room
  | .assume reaches own room name => .assume reaches own room name
  | .abstraction reaches own name flat opens inner =>
    .abstraction reaches own name flat opens inner
  | .refurbish reaches own flat opens inner => .refurbish reaches own flat opens inner
  | .attributeDef reaches own name room => .attributeDef reaches own name room

theorem inheritDecls_lie (known : List (Span × List String)) {p q : Pos} {ds : List Decl} :
    Decl.LieIn p ds q → Decl.LieIn p (inheritDecls known ds) q
  | .nil => .nil
  | .cons first rest => .cons (inheritDecl_lies known first) (inheritDecls_lie known rest)

end

end Attribute

theorem File.expand_lies {file file' : File} {info : Info} (h : file.expand (some info) = .ok file')
    (bare : file'.uses = []) (lies : Decl.LieIn p file.decls q) : Decl.LieIn p file'.decls q := by
  obtain ⟨ds, expanded, h⟩ := except_bind_ok h
  cases h
  rw [File.uses, Attribute.inheritDecls_uses] at bare
  rw [Attribute.expandDecls_eq expanded bare]
  exact Attribute.inheritDecls_lie _ lies

theorem analyze_lies {table : Table} {name src : String} {a : Analysis}
    (h : analyze table name src = .ok a) (bare : a.file.uses = []) :
    ∃ p q, Decl.LieIn p a.file.decls q := by
  obtain ⟨file, read, h⟩ := except_bind_ok h
  obtain ⟨info, resolved, h⟩ := except_bind_ok h
  obtain ⟨expanded, expand, h⟩ := except_bind_ok h
  cases h
  obtain ⟨p, q, lies⟩ := File.read_lies (mapError_ok read)
  exact ⟨p, q, File.expand_lies (mapError_ok expand) bare (lies.settle info)⟩

theorem analyze_spelt {good : String → Prop} {table : Table} {name src : String} {a : Analysis}
    (spelling : Spelling good) (spelt : table.Spelt good) (h : analyze table name src = .ok a) :
    a.info.Spelt good := by
  obtain ⟨file, read, h⟩ := except_bind_ok h
  obtain ⟨info, resolved, h⟩ := except_bind_ok h
  obtain ⟨expanded, expand, h⟩ := except_bind_ok h
  cases h
  obtain ⟨p, q, lies⟩ := File.read_lies (mapError_ok read)
  exact (File.resolve_sound spelling spelt lies (mapError_ok resolved)).1

end TastyLang
