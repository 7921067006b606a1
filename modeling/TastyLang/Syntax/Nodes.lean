import TastyLang.Syntax.Decl

/-!
# The nodes of a tree

`File.nodes` lists all nodes of a file, each in front of its parts and the parts in the order of the
text. Enumerators and parameters are no nodes of their own; their values and types are.
-/

namespace TastyLang

inductive Node where
  | file (f : File)
  | decl (d : Decl)
  | var (d : VarDecl)
  | func (d : FuncDecl)
  | enum (d : EnumDecl)
  | inject (info : DeclInfo)
  | type (t : TypeExpr)
  | block (b : Block)
  | stmt (s : Stmt)
  | expr (e : Expr)

def Node.span : Node → Span
  | file f => f.span
  | decl d => d.info.span
  | var d => d.info.span
  | func d => d.info.span
  | enum d => d.info.span
  | inject i => i.span
  | type t => t.span
  | block b => b.span
  | stmt s => s.span
  | expr e => e.span

mutual

def TypeExpr.nodes : TypeExpr → List Node
  | .named s n args k => .type (.named s n args k) :: nodesOf args
  | .tuple s elems k => .type (.tuple s elems k) :: nodesOf elems
  | .func s params result k =>
    .type (.func s params result k) :: (nodesOf params ++
      match result with
      | some r => nodes r
      | none => [])

def TypeExpr.nodesOf : List TypeExpr → List Node
  | [] => []
  | t :: ts => nodes t ++ nodesOf ts

end

mutual

def Expr.nodes (e : Expr) : List Node :=
  .expr e ::
    match e with
    | .literal _ _ _ | .ident _ _ | .self _ => []
    | .binary _ _ l r => nodes l ++ nodes r
    | .unary _ _ x _ | .member _ x _ _ | .delete _ x | .tupleIndex _ x _ | .paren _ x => nodes x
    | .call _ fn args => nodes fn ++ nodesOf args
    | .index _ x i => nodes x ++ nodes i
    | .new _ t args => t.nodes ++ nodesOf args
    | .cast _ x _ t => nodes x ++ t.nodes
    | .tuple _ elems => nodesOf elems
    | .range _ low high => nodes low ++ nodes high
    | .ternary _ c y n => nodes c ++ nodes y ++ nodes n

def Expr.nodesOf : List Expr → List Node
  | [] => []
  | e :: es => nodes e ++ nodesOf es

end

/-- The nodes of a part that may be missing. -/
def nodesIn {α : Type} (nodes : α → List Node) : Option α → List Node
  | some a => nodes a
  | none => []

def VarDecl.nodes (d : VarDecl) : List Node :=
  .var d :: (nodesIn TypeExpr.nodes d.type ++ nodesIn Expr.nodes d.value)

mutual

def Stmt.nodes (s : Stmt) : List Node :=
  match s with
  | .block b => b.nodes
  | .expr _ x => .stmt s :: x.nodes
  | .decl _ d => .stmt s :: d.nodes
  | .branch _ _ cond yes no =>
    .stmt s :: (cond.nodes ++ yes.nodes ++
      match no with
      | some e => e.nodes
      | none => [])
  | .loop _ _ cond body => .stmt s :: (nodesIn Expr.nodes cond ++ body.nodes)
  | .count _ _ _ low high step body =>
    .stmt s :: (low.nodes ++ high.nodes ++ nodesIn Expr.nodes step ++ body.nodes)
  | .each _ _ _ items body => .stmt s :: (items.nodes ++ body.nodes)
  | .ret _ value _ _ _ => .stmt s :: nodesIn Expr.nodes value
  | .brk _ _ | .cont _ _ | .inject _ _ => [.stmt s]

def Block.nodes (b : Block) : List Node :=
  match b with
  | .mk span ss owned => .block (.mk span ss owned) :: Stmt.nodesOf ss

def Stmt.nodesOf : List Stmt → List Node
  | [] => []
  | s :: ss => s.nodes ++ Stmt.nodesOf ss

end

def Param.nodes (p : Param) : List Node := p.type.nodes ++ nodesIn Expr.nodes p.value

def FuncDecl.nodes (f : FuncDecl) : List Node :=
  .func f :: (f.params.flatMap Param.nodes ++ nodesIn TypeExpr.nodes f.result
    ++ nodesIn Block.nodes f.body)

def EnumDecl.nodes (d : EnumDecl) : List Node :=
  .enum d :: d.members.flatMap fun m => nodesIn Expr.nodes m.value

def Item.nodes : Item → List Node
  | .var d => d.nodes
  | .func f => f.nodes
  | .enum d => d.nodes
  | .inject info _ => [.inject info]

mutual

def Decl.nodes (d : Decl) : List Node :=
  match d with
  | .item i => i.nodes
  | .scope _ _ ds => .decl d :: Decl.nodesOf ds
  | .cls _ _ bases items => .decl d :: (TypeExpr.nodesOf bases ++ items.flatMap Item.nodes)
  | .abstraction _ _ target fs | .refurbish _ target fs =>
    .decl d :: (target.nodes ++ fs.flatMap FuncDecl.nodes)
  | .includes _ _ _ _ | .assume _ _ _ | .attributeDef _ _ _ _ => [.decl d]

def Decl.nodesOf : List Decl → List Node
  | [] => []
  | d :: ds => d.nodes ++ Decl.nodesOf ds

end

def File.nodes (f : File) : List Node := .file f :: Decl.nodesOf f.decls

end TastyLang
