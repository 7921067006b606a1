import TastyLang.Proofs.Resolution.Charting

/-!
# Namespaces that are opened

A namespace is opened by a block of declarations, or by an `assume` of its name, and blocks of one
name in one scope share a symbol. A symbol from an `assume` has no scope for members, so a block that
joins it has none for its declarations. These are the only namespaces without members
(`SymbolTable.Bares`, `declareDecls_bares`).
-/

namespace TastyLang

inductive Opening where
  | assumed (path : Path) (name : String)
  | block (path : Path) (name : String) (pos : Pos) (ds : List Decl)

/-- Where a namespace is opened, and whether by a block. -/
def Opening.label : Opening → Path × String × Bool
  | assumed π name => (π, name, false)
  | block π name _ _ => (π, name, true)

mutual

/-- The namespaces that a declaration at a path assumes or opens, in the order of the text. -/
def Decl.openings (π : Path) : Decl → List Opening
  | .assume _ name .scope => if name.toList.contains '.' then [] else [.assumed π name]
  | .scope info name ds => .block π name info.span.start ds :: Decl.openingsOf (name :: π) ds
  | .assume _ _ .cls | .assume _ _ .func | .assume _ _ .var | .item _ | .includes _ _ _ _
  | .cls _ _ _ _ | .abstraction _ _ _ _ | .refurbish _ _ _ | .attributeDef _ _ _ _ => []

def Decl.openingsOf (π : Path) : List Decl → List Opening
  | [] => []
  | d :: ds => d.openings π ++ Decl.openingsOf π ds

end

def File.openings (file : File) : List Opening := Decl.openingsOf [] file.decls

/-- A block joins a name that was assumed before, in the same scope, to be a namespace. -/
def Opening.Joins (os : List Opening) (π : Path) (name : String) (pos : Pos) (ds : List Decl) :
    Prop :=
  ∃ before after, os = before ++ .block π name pos ds :: after ∧ .assumed π name ∈ before

open Resolution

variable {ds : List Decl}

theorem Decl.openingsOf_idle (idle : ds.any needsScope = false) (π : Path) :
    Decl.openingsOf π ds = [] := by
  induction ds with
  | nil => rfl
  | cons d ds ih =>
    simp only [List.any_cons, Bool.or_eq_false_iff] at idle
    rw [Decl.openingsOf, ih idle.2, List.append_nil]
    cases d with
    | assume info name kind =>
      have dotted : name.toList.contains '.' = true := by simpa [needsScope] using idle.1
      cases kind with
      | scope => rw [Decl.openings, if_pos dotted]
      | cls | func | var => rfl
    | scope info name ds => exact absurd idle.1 (by simp [needsScope])
    | _ => rfl

mutual

theorem Decl.openings_parts {π π' : Path} {name : String} {pos : Pos} {ds : List Decl} :
    (d : Decl) → .block π' name pos ds ∈ d.openings π →
    Decl.landmarksOf (name :: π') ds ⊆ d.landmarks π ∧ Decl.funcsOf ds ⊆ d.funcs
  | .scope _ _ ds', opened => by
    rcases List.mem_cons.mp opened with own | inner
    · cases own
      exact ⟨List.subset_cons_self _ _, List.Subset.refl _⟩
    · obtain ⟨landmarks, funcs⟩ := Decl.openingsOf_parts ds' inner
      exact ⟨List.subset_cons_of_subset _ landmarks, funcs⟩
  | .assume _ _ .scope, opened => by
    rw [Decl.openings] at opened
    split at opened <;> simp at opened
  | .assume _ _ .cls, opened | .assume _ _ .func, opened | .assume _ _ .var, opened
  | .item _, opened | .includes _ _ _ _, opened | .cls _ _ _ _, opened
  | .abstraction _ _ _ _, opened | .refurbish _ _ _, opened
  | .attributeDef _ _ _ _, opened => by cases opened

theorem Decl.openingsOf_parts {π π' : Path} {name : String} {pos : Pos} {ds : List Decl} :
    (ds' : List Decl) → .block π' name pos ds ∈ Decl.openingsOf π ds' →
    Decl.landmarksOf (name :: π') ds ⊆ Decl.landmarksOf π ds' ∧
      Decl.funcsOf ds ⊆ Decl.funcsOf ds'
  | d :: ds', opened => by
    rcases List.mem_append.mp opened with first | rest
    · obtain ⟨landmarks, funcs⟩ := Decl.openings_parts d first
      exact ⟨List.subset_append_of_subset_left _ landmarks,
        List.subset_append_of_subset_left _ funcs⟩
    · obtain ⟨landmarks, funcs⟩ := Decl.openingsOf_parts ds' rest
      exact ⟨List.subset_append_of_subset_right _ landmarks,
        List.subset_append_of_subset_right _ funcs⟩

end

mutual

theorem Decl.openings_assume {π π' : Path} {name : String} : (d : Decl) →
    .assumed π' name ∈ d.openings π → ∃ info, .decl (.assume info name .scope) ∈ d.nodes
  | .scope _ _ ds, opened => by
    obtain ⟨info, inside⟩ := Decl.openingsOf_assume ds (by simpa [Decl.openings] using opened)
    exact ⟨info, by rw [Decl.nodes]; exact List.mem_cons_of_mem _ inside⟩
  | .assume info _ .scope, opened => by
    rw [Decl.openings] at opened
    split at opened
    · cases opened
    · cases List.mem_singleton.mp opened
      exact ⟨info, by simp [Decl.nodes]⟩
  | .assume _ _ .cls, opened | .assume _ _ .func, opened | .assume _ _ .var, opened
  | .item _, opened | .includes _ _ _ _, opened | .cls _ _ _ _, opened
  | .abstraction _ _ _ _, opened | .refurbish _ _ _, opened
  | .attributeDef _ _ _ _, opened => by cases opened

theorem Decl.openingsOf_assume {π π' : Path} {name : String} : (ds : List Decl) →
    .assumed π' name ∈ Decl.openingsOf π ds →
    ∃ info, .decl (.assume info name .scope) ∈ Decl.nodesOf ds
  | d :: ds, opened => by
    rw [Decl.nodesOf]
    rcases List.mem_append.mp opened with first | rest
    · obtain ⟨info, inside⟩ := Decl.openings_assume d first
      exact ⟨info, List.mem_append_left _ inside⟩
    · obtain ⟨info, inside⟩ := Decl.openingsOf_assume ds rest
      exact ⟨info, List.mem_append_right _ inside⟩

end

/-! ### Namespaces without members -/

variable {pos : Pos}

namespace SymbolTable

variable {t t' : SymbolTable} {sc c : ScopeId} {id i : SymbolId} {π : Path} {name : String}
  {os os' : List Opening}

/-- The namespaces without members are those that were assumed, and a block without a scope joins
one of them. -/
structure Bares (t : SymbolTable) (os : List Opening) : Prop where
  listed : ∀ sc id, t.Bare sc id → ∃ π, t.At sc π ∧ .assumed π (t.symbol id).name ∈ os
  found : ∀ π name, .assumed π name ∈ os →
    ∃ sc id, t.At sc π ∧ t.lookupLocal? sc name = some id ∧ t.Bare sc id
  opened : ∀ before π name pos ds, before ++ [.block π name pos ds] <+: os →
    (∃ m, t.At m (name :: π)) ∨ .assumed π name ∈ before

theorem Bares.block (bares : t.Bares os)
    (placed : (∃ m, t.At m (name :: π)) ∨ .assumed π name ∈ os) :
    t.Bares (os ++ [.block π name pos ds]) := by
  refine ⟨fun sc id bare => ?_, fun π' name' opened => ?_, fun before π' name' pos' ds' opened => ?_⟩
  · obtain ⟨π', here, opened⟩ := bares.listed sc id bare
    exact ⟨π', here, List.mem_append_left _ opened⟩
  · exact bares.found π' name' (by simpa using opened)
  · rcases List.prefix_concat_iff.mp opened with last | earlier
    · obtain ⟨rfl, own⟩ := List.append_inj' last rfl
      cases own
      exact placed
    · exact bares.opened _ _ _ _ _ earlier

theorem Bares.grow (bares : t.Bares os) (rooted : t.Rooted) (grown : t.Grows t')
    (same : ∀ sc id, t'.Bare sc id ↔ t.Bare sc id) : t'.Bares os := by
  refine ⟨fun sc id bare => ?_, fun π name opened => ?_, fun before π name pos ds opened => ?_⟩
  · have before := (same sc id).mp bare
    obtain ⟨π, here, opened⟩ := bares.listed sc id before
    rw [← (grown.symbol id (rooted.known sc id before.1)).name] at opened
    exact ⟨π, here.mono rooted grown, opened⟩
  · obtain ⟨sc, id, here, found, bare⟩ := bares.found π name opened
    refine ⟨sc, id, here.mono rooted grown, ?_, (same sc id).mpr bare⟩
    exact grown.lookupLocal? (here.known rooted) (rooted.known sc) found
  · exact (bares.opened _ _ _ _ _ opened).imp_left fun ⟨m, inside⟩ => ⟨m, inside.mono rooted grown⟩

theorem Rooted.bare_alloc (rooted : t.Rooted) {x : Symbol} :
    (t.alloc x).1.Bare c i ↔ t.Bare c i :=
  and_congr_right fun member => by
    rw [symbol_alloc, if_neg (Nat.ne_of_lt (rooted.known c i member))]

theorem Bares.assume (bares : t.Bares os) (rooted : t.Rooted) (enters : t.Enters t' sc id)
    (here : t.At sc π) (new : t.lookupLocal? sc (t'.symbol id).name = none)
    (kind : (t'.symbol id).kind = .scope) (members : (t'.symbol id).members = none) :
    t'.Bares (os ++ [.assumed π (t'.symbol id).name]) := by
  have grown := enters.grown
  refine ⟨fun c i bare => ?_, fun π' name opened => ?_, fun before π' name pos ds opened => ?_⟩
  · rcases (enters.bare rooted).mp bare with before | ⟨rfl, rfl, -⟩
    · obtain ⟨π', there, opened⟩ := bares.listed c i before
      rw [← (grown.symbol i (rooted.known c i before.1)).name] at opened
      exact ⟨π', there.mono rooted grown, List.mem_append_left _ opened⟩
    · exact ⟨π, here.mono rooted grown, by simp⟩
  · rcases List.mem_append.mp opened with before | own
    · obtain ⟨c, i, there, found, bare⟩ := bares.found π' name before
      refine ⟨c, i, there.mono rooted grown, ?_, (enters.bare rooted).mpr (.inl bare)⟩
      exact grown.lookupLocal? (there.known rooted) (rooted.known c) found
    · obtain ⟨rfl, rfl⟩ := Opening.assumed.inj (List.mem_singleton.mp own)
      refine ⟨sc, id, here.mono rooted grown, enters.lookupLocal? rooted new, ?_⟩
      exact (enters.bare rooted).mpr (.inr ⟨rfl, rfl, kind, members⟩)
  · rcases List.prefix_concat_iff.mp opened with last | earlier
    · cases (List.append_inj' last rfl).2
    · exact (bares.opened _ _ _ _ _ earlier).imp_left fun ⟨m, inside⟩ => ⟨m, inside.mono rooted grown⟩

/-- A block that has no scope joins a name that was assumed before. -/
theorem Bares.joins (bares : t.Bares os) (here : t.At sc π) (opened : .block π name pos ds ∈ os)
    (bare : t.isBare sc name = true) :
    Opening.Joins os π name pos ds := by
  obtain ⟨before, after, rfl⟩ := List.append_of_mem opened
  refine ⟨before, after, rfl, (bares.opened before π name pos ds ⟨after, by simp⟩).resolve_left ?_⟩
  rintro ⟨m, inside⟩
  obtain ⟨id, found, -, -, none⟩ := bare_of_isBare bare
  cases inside with
  | inner there found' members =>
    obtain rfl := here.scope_unique there
    obtain rfl := Option.some.inj (found.symm.trans found')
    rw [none] at members
    cases members

end SymbolTable

namespace Resolution

variable {s s' : State} {c d : Chart} {sc : ScopeId} {id : SymbolId} {π : Path} {name : String}
  {os : List Opening} {u : Unit}

theorem Filling.bares (filling : Filling s s' c d) (charted : s.Charted c)
    (bares : s.info.symbols.Bares os) : s'.info.symbols.Bares os :=
  bares.grow charted.table.rooted filling.grown filling.same

/-- A block that was entered has a scope, or it joins a namespace that was assumed. -/
theorem Filling.block {m : ScopeId} (filling : Filling s s' c d)
    (charted : s.Charted c) (here : s.info.symbols.At sc π) (bares : s.info.symbols.Bares os)
    (placed : s'.info.symbols.At m (name :: π) ∨ s'.info.symbols.At m π ∧ ds.any needsScope = false ∧
      ∃ id, s'.info.symbols.lookupLocal? sc name = some id ∧ s'.info.symbols.Bare sc id) :
    s'.info.symbols.Bares (os ++ [.block π name pos ds]) := by
  have bares₁ := filling.bares charted bares
  refine bares₁.block (placed.imp (fun inside => ⟨m, inside⟩) ?_)
  rintro ⟨-, -, id, found, bare⟩
  obtain ⟨π', there, assumed⟩ := bares₁.listed sc id bare
  obtain rfl := (here.mono charted.table.rooted filling.grown).path_unique
    filling.charted.table.rooted there
  rwa [(SymbolTable.lookupLocal?_mem found).2] at assumed

/-! ### The first pass opens namespaces -/

theorem declareAssumed_bares {info : DeclInfo} {kind : AssumeKind} (charted : s.Charted c)
    (here : s.info.symbols.At sc π) (bares : s.info.symbols.Bares os)
    (run : declareAssumed sc name kind pos s = .ok (u, s')) :
    s'.info.symbols.Bares (os ++ (Decl.assume info name kind).openings π) := by
  have rooted := charted.table.rooted
  have inside := here.known rooted
  obtain ⟨x, s₁, made, run⟩ := bind_ok run
  obtain ⟨id, s₂, alloced, rest⟩ := bind_ok run
  -- only a class makes anything else before its symbol, and that is no symbol
  have before : s₁.info.symbols = s.info.symbols ∧ x.name = name ∧ x.members = none ∧
      (x.kind = .scope ↔ kind = .scope) := by
    unfold assumedSymbol at made
    cases kind with
    | cls =>
      obtain ⟨_, s₃, made, run⟩ := bind_ok made
      obtain ⟨number, s₄, numbered, made⟩ := bind_ok made
      cases numbered
      cases made
      cases run
      simp
    | scope | func | var =>
      cases made
      simp
  obtain ⟨symbols, rfl, plain, same⟩ := before
  rw [← symbols] at rooted inside here bares
  split at rest
  · next dotted =>
    cases (alloc_run x s₁).symm.trans alloced
    cases rest
    have none : (Decl.assume info x.name kind).openings π = [] := by
      cases kind with
      | scope => rw [Decl.openings, if_pos dotted]
      | cls | func | var => rfl
    rw [none, List.append_nil]
    exact bares.grow rooted (s₁.info.symbols.alloc_grows x) fun _ _ => rooted.bare_alloc
  · next simple =>
    obtain ⟨-, rfl, shared⟩ := introduce_run rooted inside alloced rest
    have enters := introduced_enters (x := x) inside plain
    have own := @symbol_introduced sc s₁.info.symbols x s₁.info.symbols.symbols.size
    rw [if_pos rfl] at own
    by_cases namespaced : kind = .scope
    · subst namespaced
      have kind := same.mpr rfl
      have new : s₁.info.symbols.lookupLocal? sc x.name = none := by
        cases found : s₁.info.symbols.lookupLocal? sc x.name with
        | none => rfl
        | some prev => exact absurd ((shared prev found).2.symm.trans kind) (by simp)
      have opened := bares.assume rooted enters here (by rw [own]; exact new)
        (by rw [own]; exact kind) (by rw [own]; exact plain)
      rw [own] at opened
      rw [Decl.openings, if_neg simple]
      exact opened
    · have none : (Decl.assume info x.name kind).openings π = [] := by
        cases kind with
        | scope => exact absurd rfl namespaced
        | cls | func | var => rfl
      rw [none, List.append_nil]
      refine bares.grow rooted enters.grown fun at' i => ?_
      refine (enters.bare rooted).trans (or_iff_left ?_)
      rintro ⟨-, -, kind, -⟩
      rw [own] at kind
      exact namespaced (same.mp kind)

mutual

theorem declareDecl_bares {s s' : State} {c : Chart} {sc : ScopeId} {π : Path} {os : List Opening}
    (charted : s.Charted c) (here : s.info.symbols.At sc π) (bares : s.info.symbols.Bares os) :
    (d : Decl) → declareDecl sc d s = .ok (u, s') →
    s'.info.symbols.Bares (os ++ d.openings π)
  | .item i, run => by
    rw [Decl.openings, List.append_nil]
    exact (declareItem_fills charted here run).bares charted bares
  | .assume info name kind, run => declareAssumed_bares charted here bares run
  | .scope info name ds, run => by
    obtain ⟨m, s₁, found, run⟩ := bind_ok run
    obtain ⟨first, placed⟩ := namespaceScope_fills charted here found
    have bares₁ : s₁.info.symbols.Bares (os ++ [.block π name info.span.start ds]) :=
      first.block charted here bares placed
    rw [Decl.openings, List.append_cons]
    rcases placed with inside | ⟨outside, idle, -⟩
    · exact declareDecls_bares first.charted inside bares₁ ds run
    · have rest := declareDecls_bares first.charted outside bares₁ ds run
      rwa [Decl.openingsOf_idle idle] at rest ⊢
  | .cls info name bases items, run => by
    rw [Decl.openings, List.append_nil]
    exact (declareClass_fills charted here run).bares charted bares
  | .abstraction info name target fs, run => by
    rw [Decl.openings, List.append_nil]
    exact (declareAbstraction_fills charted here run).bares charted bares
  | .attributeDef info name params directives, run => by
    rw [Decl.openings, List.append_nil]
    exact (declareAttributeDef_fills charted here run).bares charted bares
  | .includes _ _ _ _, run | .refurbish _ _ _, run => by
    cases run
    rwa [Decl.openings, List.append_nil]

theorem declareDecls_bares {s s' : State} {c : Chart} {sc : ScopeId} {π : Path}
    {os : List Opening} (charted : s.Charted c) (here : s.info.symbols.At sc π)
    (bares : s.info.symbols.Bares os) : (ds : List Decl) →
    declareDecls sc ds s = .ok (u, s') → s'.info.symbols.Bares (os ++ Decl.openingsOf π ds)
  | [], run => by
    cases run
    rwa [Decl.openingsOf, List.append_nil]
  | d :: ds, run => by
    obtain ⟨_, s₁, first, rest⟩ := bind_ok run
    have charting := declareDecl_charts charted here d first
    have bares₁ := declareDecl_bares charted here bares d first
    rw [Decl.openingsOf, ← List.append_assoc]
    exact declareDecls_bares charting.charted (charting.at charted here) bares₁ ds rest

end

/-! ### Before the first pass -/

theorem bares_initial : ({} : SymbolTable).Bares [] := by
  refine ⟨fun sc id bare => ?_, fun _ _ opened => (by cases opened), fun _ _ _ _ _ opened => ?_⟩
  · obtain ⟨l, listed, -⟩ := State.charted_initial.table.declared sc id bare.1
    cases listed
  · simp at opened

end Resolution

end TastyLang
