import TastyLang.Proofs.Resolution.Keys

/-!
# Names in functions

The names that stand as expressions in a function, each with the names that the parameters, blocks and
loops around it have declared so far (`FuncDecl.mentions`). A place in the text belongs to one of them
(`File.Zoned.mention`).
-/

namespace TastyLang

/-- A name that stands as an expression in a function, with the names that the parameters, blocks and
loops around it have declared so far. -/
structure Mention where
  span : Span
  name : String
  bound : List String

def Mention.node (m : Mention) : Node := .expr (.ident m.span m.name)

def Mention.key (m : Mention) : Key := .expr m.span

/-- The names among some nodes. -/
def mentionsIn (bound : List String) (ns : List Node) : List Mention :=
  ns.filterMap fun
    | .expr (.ident span name) => some ⟨span, name, bound⟩
    | _ => none

/-- The names that a statement declares for the statements behind it. -/
def Stmt.opens : Stmt → List String
  | .decl _ d => [d.name]
  | .branch _ _ _ _ (some no) => no.opens
  | _ => []

mutual

def Stmt.mentions (bound : List String) : Stmt → List Mention
  | .block b => b.mentions bound
  | .expr _ x => mentionsIn bound x.nodes
  | .decl _ d => mentionsIn bound (nodesIn Expr.nodes d.value)
  | .branch _ _ cond yes none => mentionsIn bound cond.nodes ++ yes.mentions bound
  | .branch _ _ cond yes (some no) =>
    mentionsIn bound cond.nodes ++ (yes.mentions bound ++ no.mentions bound)
  | .loop _ _ cond body => mentionsIn bound (nodesIn Expr.nodes cond) ++ body.mentions bound
  | .count _ _ name low high step body =>
    mentionsIn bound (low.nodes ++ high.nodes ++ nodesIn Expr.nodes step) ++ body.mentions (name :: bound)
  | .each _ name _ items body => mentionsIn bound items.nodes ++ body.mentions (name :: bound)
  | .ret _ value _ _ _ => mentionsIn bound (nodesIn Expr.nodes value)
  | .brk _ _ | .cont _ _ | .inject _ _ => []

def Block.mentions (bound : List String) : Block → List Mention
  | .mk _ ss _ => Stmt.mentionsOf bound ss

def Stmt.mentionsOf (bound : List String) : List Stmt → List Mention
  | [] => []
  | s :: ss => s.mentions bound ++ Stmt.mentionsOf (s.opens ++ bound) ss

end

/-- The names in the values of parameters; a parameter is in scope in its own value. -/
def Param.mentionsOf (bound : List String) : List Param → List Mention
  | [] => []
  | q :: qs => mentionsIn (q.name :: bound) (nodesIn Expr.nodes q.value) ++
      Param.mentionsOf (q.name :: bound) qs

/-- The names in the body of a function. -/
def FuncDecl.bodyMentions (f : FuncDecl) : List Mention :=
  match f.body with
  | some b => b.mentions (f.params.map Param.name).reverse
  | none => []

def FuncDecl.mentions (f : FuncDecl) : List Mention := Param.mentionsOf [] f.params ++ f.bodyMentions

theorem mem_mentionsIn {bound : List String} {ns : List Node} {span : Span} {name : String}
    (member : .expr (.ident span name) ∈ ns) : ⟨span, name, bound⟩ ∈ mentionsIn bound ns :=
  List.mem_filterMap.mpr ⟨_, member, rfl⟩

/-! ### Mentions are the names among the nodes -/

def Node.isName : Node → Bool
  | .expr (.ident _ _) => true
  | _ => false

mutual

theorem TypeExpr.nodes_names : (t : TypeExpr) → t.nodes.filter Node.isName = []
  | .named _ _ args _ => by simp [TypeExpr.nodes, Node.isName, TypeExpr.nodesOf_names args]
  | .tuple _ elems _ => by simp [TypeExpr.nodes, Node.isName, TypeExpr.nodesOf_names elems]
  | .func _ params none _ => by simp [TypeExpr.nodes, Node.isName, TypeExpr.nodesOf_names params]
  | .func _ params (some result) _ => by
    simp [TypeExpr.nodes, Node.isName, TypeExpr.nodesOf_names params, TypeExpr.nodes_names result]

theorem TypeExpr.nodesOf_names : (ts : List TypeExpr) → (TypeExpr.nodesOf ts).filter Node.isName = []
  | [] => rfl
  | t :: ts => by
    rw [TypeExpr.nodesOf, List.filter_append, TypeExpr.nodes_names t, TypeExpr.nodesOf_names ts]
    rfl

end

theorem mentionsIn_nodes (bound : List String) (ns : List Node) :
    (mentionsIn bound ns).map Mention.node = ns.filter Node.isName := by
  induction ns with
  | nil => rfl
  | cons n ns ih =>
    unfold mentionsIn at ih ⊢
    rw [List.filterMap_cons, List.filter_cons]
    split
    · next other =>
      rw [ih, if_neg]
      intro named
      unfold Node.isName at named
      split at named
      · cases other
      · cases named
    · next m found =>
      split at found
      · cases found
        rw [List.map_cons, ih]
        rfl
      · cases found

mutual

theorem Stmt.mentions_nodes : (bound : List String) → (s : Stmt) →
    (s.mentions bound).map Mention.node = s.nodes.filter Node.isName
  | bound, .block b => b.mentions_nodes bound
  | bound, .expr _ x => mentionsIn_nodes bound x.nodes
  | bound, .decl _ d => by
    have types : (nodesIn TypeExpr.nodes d.type).filter Node.isName = [] := by
      cases d.type with
      | none => rfl
      | some t => exact t.nodes_names
    simp [Stmt.mentions, Stmt.nodes, VarDecl.nodes, Node.isName, mentionsIn_nodes, types]
  | bound, .branch _ _ cond yes none => by
    simp [Stmt.mentions, Stmt.nodes, Node.isName, mentionsIn_nodes, yes.mentions_nodes bound]
  | bound, .branch _ _ cond yes (some no) => by
    simp [Stmt.mentions, Stmt.nodes, Node.isName, mentionsIn_nodes, yes.mentions_nodes bound,
      no.mentions_nodes bound]
  | bound, .loop _ _ _ body => by
    simp [Stmt.mentions, Stmt.nodes, Node.isName, mentionsIn_nodes, body.mentions_nodes bound]
  | bound, .count _ _ name _ _ _ body => by
    simp [Stmt.mentions, Stmt.nodes, Node.isName, mentionsIn_nodes, body.mentions_nodes (name :: bound)]
  | bound, .each _ name _ _ body => by
    simp [Stmt.mentions, Stmt.nodes, Node.isName, mentionsIn_nodes, body.mentions_nodes (name :: bound)]
  | bound, .ret _ _ _ _ _ => mentionsIn_nodes bound _
  | _, .brk _ _ | _, .cont _ _ | _, .inject _ _ => rfl

theorem Block.mentions_nodes : (bound : List String) → (b : Block) →
    (b.mentions bound).map Mention.node = b.nodes.filter Node.isName
  | bound, .mk _ ss _ => Stmt.mentionsOf_nodes bound ss

theorem Stmt.mentionsOf_nodes : (bound : List String) → (ss : List Stmt) →
    (Stmt.mentionsOf bound ss).map Mention.node = (Stmt.nodesOf ss).filter Node.isName
  | _, [] => rfl
  | bound, s :: ss => by
    rw [Stmt.mentionsOf, Stmt.nodesOf, List.map_append, List.filter_append, s.mentions_nodes bound,
      Stmt.mentionsOf_nodes (s.opens ++ bound) ss]

end

theorem Param.mentionsOf_nodes (bound : List String) (qs : List Param) :
    (Param.mentionsOf bound qs).map Mention.node =
      (qs.flatMap fun q => nodesIn Expr.nodes q.value).filter Node.isName := by
  induction qs generalizing bound with
  | nil => rfl
  | cons q qs ih =>
    rw [Param.mentionsOf, List.map_append, List.flatMap_cons, List.filter_append, mentionsIn_nodes, ih]

theorem FuncDecl.mentions_nodes (f : FuncDecl) :
    f.mentions.map Mention.node = f.late.filter Node.isName := by
  have body : f.bodyMentions.map Mention.node = (nodesIn Block.nodes f.body).filter Node.isName := by
    unfold FuncDecl.bodyMentions
    cases f.body with
    | none => rfl
    | some b => exact b.mentions_nodes _
  rw [FuncDecl.mentions, List.map_append, FuncDecl.late, List.filter_append, Param.mentionsOf_nodes, body]

theorem FuncDecl.mention_late {f : FuncDecl} {m : Mention} (member : m ∈ f.mentions) : m.node ∈ f.late := by
  refine List.mem_of_mem_filter (p := Node.isName) ?_
  rw [← f.mentions_nodes]
  exact List.mem_map_of_mem member

theorem keysOf_mentions (ms : List Mention) : keysOf (ms.map Mention.node) = ms.map Mention.key := by
  induction ms with
  | nil => rfl
  | cons m ms ih =>
    rw [List.map_cons, keysOf_cons, ih]
    rfl

theorem File.Zoned.mention {file : File} (zoned : file.Zoned) {f g : FuncDecl} {m m' : Mention}
    (listed : f ∈ file.funcs) (listed' : g ∈ file.funcs) (member : m ∈ f.mentions)
    (member' : m' ∈ g.mentions) (same : m'.span = m.span) : g = f ∧ m' = m := by
  have keys : ∀ h : FuncDecl, (h.mentions.map Mention.key).Sublist (keysOf h.late) := fun h => by
    rw [← keysOf_mentions, h.mentions_nodes]
    exact List.filter_sublist.filterMap _
  have here := (keys f).subset (List.mem_map_of_mem member)
  have there := (keys g).subset (List.mem_map_of_mem member')
  have key : m'.key = m.key := congrArg Key.expr same
  rw [key] at there
  obtain rfl : g = f := by
    by_contra differ
    exact zoned.apart g listed' f listed differ _ there here
  exact ⟨rfl, List.inj_on_of_nodup_map ((zoned.late g listed).sublist (keys g)) member' member key⟩

end TastyLang
