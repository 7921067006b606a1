import TastyLang.Builtin.Basic

/-!
# Types

The types of values. The model is shallow: it knows primitives, pointers, smart pointers, tuples,
functions and class hierarchies well enough to choose the right C++ form. A type that nothing
declares is `unknown` and fits everywhere; `absent` stands for no type at all and behaves like it.
`Ty.text` writes a type in surface syntax, `Ty.cpp` in C++.
-/

namespace TastyLang

inductive Ty where
  | void
  | null
  | prim (p : Primitive)
  /-- a class: its dotted name and its number in the hierarchy -/
  | cls (name : String) (number : Nat)
  | enum (name : String)
  | scope (name : String)
  | template (base : Ty) (args : List Ty)
  | tuple (elems : List Ty)
  /-- `level` raw pointers in a row -/
  | pointer (elem : Ty) (level : Nat)
  | reference (elem : Ty) (isConst : Bool)
  | smart (elem : Ty) (unique : Bool)
  | func (params : List Ty) (result : Ty)
  /-- the type of `a..b` -/
  | range (elem : Ty)
  /-- a type nothing declares; without a name it is left to C++ to infer -/
  | unknown (name : String)
  | invalid
  | absent
  /-- a type that was named through an abstract binding -/
  | via (binding : String) (t : Ty)
  deriving Inhabited

namespace Ty

/-- The type without the binding it was named through. -/
def core : Ty → Ty
  | via _ t => core t
  | t => t

/-- The abstract binding that the type was named through; empty when there is none. -/
def binding : Ty → String
  | via b _ => b
  | _ => ""

/-- The type as named through an abstract binding. -/
def viaBinding (t : Ty) (b : String) : Ty := if b = "" then t.core else via b t.core

def ofPrimitive (p : Primitive) : Ty := if p.name = "void" then void else prim p

/-- `level` raw pointers to a type; pointers to pointers are one type with the sum of the levels. -/
def pointerTo (t : Ty) (level : Nat) : Ty :=
  if level = 0 then t
  else
    match t.core with
    | pointer elem n => pointer elem (n + level)
    | _ => pointer t level

def kindName : Ty → String
  | void => "void"
  | null => "null"
  | prim _ => "primitive"
  | cls _ _ => "class"
  | enum _ => "enum"
  | scope _ => "namespace"
  | template _ _ => "template"
  | tuple _ => "tuple"
  | pointer _ _ => "pointer"
  | reference _ _ => "reference"
  | smart _ _ => "smart"
  | func _ _ => "func"
  | range _ => "range"
  | unknown _ => "unknown"
  | invalid => "invalid"
  | absent => "absent"
  | via _ t => kindName t

/-- The name a type goes by; empty for types that are built from others. -/
def name : Ty → String
  | void => "void"
  | null => "null"
  | prim p => p.name
  | cls n _ | enum n | scope n | unknown n => n
  | template base _ => name base
  | via _ t => name t
  | _ => ""

def scopedName (name : String) : String := Text.replaceChar '.' "::" name

mutual

/-- The type in surface syntax. -/
def text : Ty → String
  | void => "void"
  | null => "null"
  | prim p => p.name
  | cls n _ | enum n | scope n | unknown n => n
  | template base args => base.name ++ "<" ++ textList args ++ ">"
  | tuple elems => "(" ++ textList elems ++ ")"
  | pointer elem level => text elem ++ Text.repeated "*" level
  | reference elem isConst => (if isConst then "borrow " else "ref ") ++ text elem
  | smart elem unique => (if unique then "uniqueptr " else "autoptr ") ++ text elem
  | func params result => "fn(" ++ textList params ++ ") -> " ++ text result
  | range elem => "range<" ++ text elem ++ ">"
  | invalid => "invalid"
  | absent => "unknown"
  | via _ t => text t

def textList : List Ty → String
  | [] => ""
  | [t] => text t
  | t :: ts => text t ++ ", " ++ textList ts

end

mutual

/-- The type in C++. -/
def cpp : Ty → String
  | void => "void"
  | null => "std::nullptr_t"
  | prim p => p.cpp
  | cls n _ | enum n | scope n => scopedName n
  | unknown n => if n = "" then "auto" else scopedName n
  | template base args => scopedName base.name ++ "<" ++ cppList args ++ ">"
  | tuple elems => "std::tuple<" ++ cppList elems ++ ">"
  | pointer elem level => cpp elem ++ Text.repeated "*" level
  | reference elem isConst => (if isConst then "const " else "") ++ cpp elem ++ "&"
  | smart elem unique =>
    (if unique then "std::unique_ptr<" else "std::shared_ptr<") ++ cpp elem ++ ">"
  | func params result => "std::function<" ++ cpp result ++ "(" ++ cppList params ++ ")>"
  | range _ | invalid | absent => "auto"
  | via _ t => cpp t

def cppList : List Ty → String
  | [] => ""
  | [t] => cpp t
  | t :: ts => cpp t ++ ", " ++ cppList ts

end

mutual

/-- Whether the type is or is built from one that has no name to write in C++. -/
def anonymous : Ty → Bool
  | unknown n => n = ""
  | absent => true
  | template base args => anonymousAny args || anonymous base
  | tuple elems => anonymousAny elems
  | pointer elem _ | reference elem _ | smart elem _ | range elem => anonymous elem
  | func params result => anonymousAny params || anonymous result
  | void | null | prim _ | cls _ _ | enum _ | scope _ | invalid => false
  | via _ t => anonymous t

def anonymousAny : List Ty → Bool
  | [] => false
  | t :: ts => anonymous t || anonymousAny ts

end

def isUnknown : Ty → Bool
  | unknown _ | absent => true
  | via _ t => isUnknown t
  | _ => false

def isVoid : Ty → Bool
  | void => true
  | via _ t => isVoid t
  | _ => false

def isTuple : Ty → Bool
  | tuple _ => true
  | via _ t => isTuple t
  | _ => false

/-- The primitive that a type is. -/
def primitive? : Ty → Option Primitive
  | prim p => some p
  | via _ t => primitive? t
  | _ => none

/-- Whether the type takes part in widening. -/
def isNumeric (t : Ty) : Bool := t.primitive?.any fun p => 1 ≤ p.rank

def isIntegral (t : Ty) : Bool := t.primitive?.any (·.integer)

/-- Whether `null` fits the type. -/
def isPointerLike : Ty → Bool
  | pointer _ _ | smart _ _ | null => true
  | prim p => p.name == "text"
  | via _ t => isPointerLike t
  | _ => false

/-- The type behind references. -/
def deref : Ty → Ty
  | reference t _ => deref t
  | via b t =>
    match t with
    | reference u _ => deref u
    | t => via b t
  | t => t

/-- How many dereferences separate a value from its members. -/
def pointerDepth : Ty → Nat
  | pointer _ level => level
  | smart elem _ => 1 + pointerDepth elem
  | reference t _ => pointerDepth t
  | via _ t => pointerDepth t
  | _ => 0

/-- The type whose members a value gives access to. -/
def pointee : Ty → Ty
  | pointer elem _ | smart elem _ => pointee elem
  | reference t _ => pointee t
  | via b t =>
    match t with
    | pointer elem _ | smart elem _ => pointee elem
    | reference u _ => pointee u
    | t => via b t
  | t => t

end Ty

end TastyLang
