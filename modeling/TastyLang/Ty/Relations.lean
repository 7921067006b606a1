import TastyLang.Syntax.Expr
import TastyLang.Syntax.Storage
import TastyLang.Ty.Basic

/-!
# Relations between types

When a value of one type fits a place of another, what type two values have in common, and which
casts are allowed. Classes are compared through a `Hierarchy`, which holds the bases of each class
by its number.
-/

namespace TastyLang

/-- The direct bases of each class, by number. -/
structure Hierarchy where
  bases : List (List Ty) := []
  deriving Inhabited

namespace Ty

mutual

/-- Whether a type equals one that is named through no binding. -/
def equalCore : Ty → Ty → Bool
  | via _ a, b => equalCore a b
  | void, void | null, null | absent, absent => true
  | prim p, prim q => p.name == q.name
  | cls n _, cls m _ => n == m
  | enum n, enum m => n == m
  | scope n, scope m => n == m
  | unknown n, unknown m => n == m
  | pointer a n, pointer b m => n == m && equalCore a b.core
  | reference a c, reference b d => c == d && equalCore a b.core
  | smart a u, smart b v => u == v && equalCore a b.core
  | range a, range b => equalCore a b.core
  | template a as, template b bs => equalCore a b.core && equalList as bs
  | func as a, func bs b => equalCore a b.core && equalList as bs
  | tuple as, tuple bs => equalList as bs
  | _, _ => false

def equalList : List Ty → List Ty → Bool
  | [], [] => true
  | a :: as, b :: bs => equalCore a b.core && equalList as bs
  | _, _ => false

end

/-- Whether two types are built the same way from the same names. The binding a type was named
through does not count, and an invalid type equals none. -/
def equal (a b : Ty) : Bool := a.equalCore b.core

end Ty

namespace Hierarchy

/-- The direct bases of a type; only classes have any. -/
def basesOf (h : Hierarchy) : Ty → List Ty
  | .cls _ number => h.bases.getD number []
  | .via _ t => basesOf h t
  | _ => []

/-- Whether `base` is `derived` or one of its bases, at most `steps` generations away. -/
def reaches (h : Hierarchy) : Nat → Ty → Ty → Bool
  | 0, derived, base => derived.equal base
  | n + 1, derived, base =>
    derived.equal base || (h.basesOf derived).any fun b => reaches h n b base

def isAbsent : Ty → Bool
  | .absent => true
  | _ => false

/-- Whether `derived` is `base` or inherits from it. The bound only matters where classes extend each
other in a circle: the search without one gives the same answer wherever it ends, as it always does
without circles (`descend_eq`, `settles_of_acyclic`). -/
def isSubclass (h : Hierarchy) (derived base : Ty) : Bool :=
  if isAbsent derived || isAbsent base then false
  else h.reaches (h.bases.length + 1) derived base

end Hierarchy

namespace Ty

variable (h : Hierarchy)

mutual

/-- Whether a value of type `src` may initialise a place of type `dst`. References count as what
they refer to, and an unknown type fits everywhere. -/
def convertible : Ty → Ty → Bool
  | via _ dst, src => convertible dst src
  | reference dst _, src => convertible dst src
  | dst, src =>
    let src := src.deref.core
    if dst.isUnknown || src.isUnknown then true
    else if equal dst src then true
    else
      match dst, src with
      | prim p, prim q =>
        1 ≤ p.rank && 1 ≤ q.rank && q.rank ≤ p.rank
      | pointer a n, pointer b m =>
        n == m && (a.isUnknown || b.isUnknown || (n == 1 && h.isSubclass b a))
      | smart a u, smart b v => u == v && (convertible a b || h.isSubclass b a)
      | tuple as, tuple bs => convertibleList as bs
      | template a as, template b bs => a.name == b.name && equalList as bs
      | dst, null => dst.isPointerLike
      | _, _ => false

def convertibleList : List Ty → List Ty → Bool
  | [], [] => true
  | a :: as, b :: bs => convertible a b && convertibleList as bs
  | _, _ => false

end

/-- The type that values of two types have in common: the wider of two numbers, the pointer that
fits `null`, or the pointer to the base class. -/
def unify (a b : Ty) : Option Ty :=
  if Hierarchy.isAbsent a then some b
  else if Hierarchy.isAbsent b then some a
  else if a.isUnknown then some a
  else if b.isUnknown then some b
  else if equal a b then some a
  else
    let da := a.deref
    let db := b.deref
    if equal da db then some da
    else
      match da.core, db.core with
      | prim p, prim q =>
        if 1 ≤ p.rank && 1 ≤ q.rank then
          some (if p.rank < q.rank then db else da)
        else none
      | null, c => if c.isPointerLike then some db else none
      | c, null => if c.isPointerLike then some da else none
      | pointer x n, pointer y m =>
        if n ≠ m then none
        else if h.isSubclass y x then some da
        else if h.isSubclass x y then some db
        else none
      | _, _ => none

/-- The type that all values have in common; no type at all when there are no values. -/
def common (ts : List Ty) : Option Ty := ts.foldlM (unify h) absent

end Ty

/-- Why a cast is refused. -/
inductive CastFault where
  | tupleMismatch
  | voidValue
  | notPointer
  | nonInteger
  deriving DecidableEq, Inhabited

def CastFault.detail : CastFault → String
  | tupleMismatch => "tuple and non-tuple"
  | voidValue => "void value"
  | notPointer => "source is not a pointer or reference"
  | nonInteger => "pointer and non-integer primitive"

namespace Ty

/-- The fault of a cast from `src` to `dst`, if it has one. Both are taken without references. -/
def castFault? (src dst : Ty) (kind : CastKind) : Option CastFault :=
  let s := src.deref.core
  let d := dst.deref.core
  if s.isUnknown || d.isUnknown then none
  else if s.isTuple != d.isTuple then some .tupleMismatch
  else if s.isVoid || d.isVoid then some .voidValue
  else
    match kind with
    | .dynamic =>
      match s with
      | pointer _ _ | smart _ _ => none
      | _ => some .notPointer
    | .static =>
      let fromPointer := match s with
        | pointer _ _ | null => true
        | _ => false
      let toPointer := match d with
        | pointer _ _ => true
        | _ => false
      if fromPointer != toPointer then
        match (if toPointer then s else d).primitive? with
        | some p => if p.integer then none else some .nonInteger
        | none => none
      else none
    | .plain | .reinterpret => none

end Ty

/-- A rule of types that a program breaks. -/
inductive TypeError.Cause where
  | ambiguous (name : String) (types : List String)
  | incompatible (src dst : Ty)
  | cast (src dst : Ty) (kind : CastKind) (fault : CastFault)
  | range
  | rangeBounds (low high : Ty)
  | tupleIndex (at' : Nat) (type : Ty) (size : Nat)
  deriving Inhabited

structure TypeError where
  cause : TypeError.Cause
  pos : Pos := {}
  deriving Inhabited

namespace TypeError

def detail (e : TypeError) : String :=
  match e.cause with
  | .ambiguous name types => s!"return types of {name} disagree: " ++ Text.join ", " types
  | .incompatible src dst => s!"cannot assign {src.text} to {dst.text}"
  | .cast src dst kind fault =>
    s!"cannot cast {src.text} to {dst.text} with {kind.name} cast: {fault.detail}"
  | .range => "range expression is only valid as the iterated value of a for-in loop"
  | .rangeBounds low high => s!"range bounds {low.text} and {high.text} have no common type"
  | .tupleIndex i type size => s!"index {i} out of range for {type.text} with {size} elements"

def message (e : TypeError) : String :=
  s!"type error at line {e.pos.line}, column {e.pos.column}: {e.detail}"

def code (e : TypeError) : String :=
  match e.cause with
  | .ambiguous _ _ => "E401"
  | .incompatible _ _ => "E402"
  | .cast _ _ _ _ => "E403"
  | .range | .rangeBounds _ _ => "E404"
  | .tupleIndex _ _ _ => "E405"

end TypeError

namespace Ty

/-- Checks that a value of type `src` may be assigned to a place of type `dst`. -/
def assignable (h : Hierarchy) (dst src : Ty) : Except TypeError.Cause Unit :=
  if convertible h dst src then .ok () else .error (.incompatible src dst)

/-- Checks a cast. -/
def checkCast (src dst : Ty) (kind : CastKind) : Except TypeError.Cause Unit :=
  match castFault? src dst kind with
  | none => .ok ()
  | some fault => .error (.cast src.deref dst.deref kind fault)

end Ty

end TastyLang

/-! ### Storage and types

The type of a variable follows from its storage and the type it holds.
-/

namespace TastyLang

namespace Ty

def isPointer (t : Ty) : Bool :=
  match t.core with
  | pointer _ _ => true
  | _ => false

def isSmart (t : Ty) : Bool :=
  match t.core with
  | smart _ _ => true
  | _ => false

/-- A type inside `n` shared pointers. -/
def shared (t : Ty) : Nat → Ty
  | 0 => t
  | n + 1 => smart (shared t n) false

end Ty

/-- The type of a variable that holds a `t`. A pointer of level `n` is a raw pointer inside
`n - 1` shared ones; a type that is a pointer already is not wrapped again. -/
def Storage.typeOf (s : Storage) (t : Ty) : Ty :=
  match s.kind with
  | .reference isConst => .reference t isConst
  | .rawPointer level => Ty.shared (if t.isPointer then t else .pointer t 1) (level - 1)
  | .shared => if t.isSmart then t else .smart t false
  | .unique => if t.isSmart then t else .smart t true
  | .unresolved | .value | .moved => t

end TastyLang

/-! ### Types of literals

The suffix of a number chooses among its types: `u` and `l` for whole numbers, `f` for a float.
-/

namespace TastyLang.Ty

/-- The primitive of a given name, or an unknown type of that name. -/
def ofName (table : Table) (name : String) : Ty :=
  match table.primitive? name with
  | some p => ofPrimitive p
  | none => unknown name

/-- The characters that can stand in front of the suffix of a whole number. -/
def isNumeralChar (c : Char) : Bool :=
  c == '-' || ('0' ≤ c && c ≤ '9') || ('a' ≤ c && c ≤ 'f') || ('A' ≤ c && c ≤ 'F')
    || c == 'x' || c == 'X'

/-- The type of a whole number, by its suffix. -/
def wholeName (value : String) : String :=
  let suffix := value.toList.dropWhile isNumeralChar
  let unsigned := suffix.any fun c => c == 'u' || c == 'U'
  let long := suffix.any fun c => c == 'l' || c == 'L'
  match unsigned, long with
  | true, true => "ulong"
  | true, false => "uint"
  | false, true => "long"
  | false, false => "int"

def ofLiteral (table : Table) (kind : LiteralKind) (value : String) : Ty :=
  match kind with
  | .string => ofName table "text"
  | .char => ofName table "char"
  | .bool => ofName table "bool"
  | .null => null
  | .float =>
    if Text.endsWith "f" value || Text.endsWith "F" value then ofName table "float"
    else ofName table "double"
  | .int => ofName table (wholeName value)

end TastyLang.Ty
