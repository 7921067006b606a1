import TastyLang.Text.Pieces

/-!
# The built-in table

What every compilation knows before it reads a program: primitive types, namespaces that need no
`assume`, headers that a name or a language feature asks for, and how tightly operators bind.
Every section lists its entries in the order of their names. `Table.headerFor?` looks a dotted
name up under its longest listed head.
-/

namespace TastyLang

/-- A built-in scalar type. -/
structure Primitive where
  name : String
  cpp : String
  /-- the widening order; 0 for a type that does not widen -/
  rank : Int := 0
  integer : Bool := false
  /-- the header a use of the type asks for, if any -/
  header : String := ""
  deriving DecidableEq, Inhabited

/-- Whether a primitive takes part in widening. -/
def Primitive.numeric (p : Primitive) : Bool := 1 < p.rank

/-- How tightly a binary operator binds; a right binding groups `a o b o c` to the right. -/
structure Binding where
  symbol : String
  precedence : Int
  right : Bool := false
  deriving DecidableEq, Inhabited

/-- The least precedence of the right operand of an operator. -/
def Binding.operandPrecedence (b : Binding) : Int :=
  if b.right then b.precedence else b.precedence + 1

structure Table where
  primitives : List Primitive
  /-- dotted names; one that is switched off is no namespace -/
  namespaces : List (String × Bool)
  /-- headers by dotted name -/
  includes : List (String × String)
  /-- headers by language feature -/
  features : List (String × String)
  operators : List Binding
  deriving DecidableEq, Inhabited

namespace Table

def primitive? (t : Table) (name : String) : Option Primitive :=
  t.primitives.find? (·.name == name)

def primitiveSpelled? (t : Table) (cpp : String) : Option Primitive :=
  t.primitives.find? (·.cpp == cpp)

def isNamespace (t : Table) (name : String) : Bool :=
  (t.namespaces.lookup name).getD false

def namespaceNames (t : Table) : List String :=
  (t.namespaces.filter (·.2)).map (·.1)

/-- The header of a language feature; empty when there is none. -/
def feature (t : Table) (name : String) : String := (t.features.lookup name).getD ""

def binding? (t : Table) (symbol : String) : Option Binding :=
  t.operators.find? (·.symbol == symbol)

/-- The header that the use of a dotted name asks for: the one listed for it, or else the one that
what stands in front of its last dot asks for. -/
def headerFor? (t : Table) (name : String) : Option String :=
  match t.includes.lookup name with
  | some header => some header
  | none =>
    match _cut : Text.beforeLast? '.' name.toList with
    | none => none
    | some head => t.headerFor? (String.ofList head)
termination_by name.length
decreasing_by
  obtain ⟨tail, whole, -⟩ := Text.beforeLast?_some _cut
  have shorter := congrArg List.length whole
  simp only [String.length_toList, List.length_append, List.length_cons] at shorter
  rw [String.length_ofList]
  omega

end Table

end TastyLang

/-! ### The default table

The entries every project starts from. An overlay may change any of them.
-/

namespace TastyLang.Table

def defaultPrimitives : List Primitive := [
  ⟨"bool", "bool", 1, false, ""⟩,
  ⟨"byte", "unsigned char", 2, true, ""⟩,
  ⟨"char", "char", 2, true, ""⟩,
  ⟨"double", "double", 8, false, ""⟩,
  ⟨"float", "float", 7, false, ""⟩,
  ⟨"i16", "int16_t", 3, true, "cstdint"⟩,
  ⟨"i32", "int32_t", 4, true, "cstdint"⟩,
  ⟨"i64", "int64_t", 6, true, "cstdint"⟩,
  ⟨"i8", "int8_t", 2, true, "cstdint"⟩,
  ⟨"int", "int", 4, true, ""⟩,
  ⟨"long", "long", 5, true, ""⟩,
  ⟨"short", "short", 3, true, ""⟩,
  ⟨"size_t", "size_t", 5, true, "cstddef"⟩,
  ⟨"text", "const char*", 0, false, ""⟩,
  ⟨"u16", "uint16_t", 3, true, "cstdint"⟩,
  ⟨"u32", "uint32_t", 4, true, "cstdint"⟩,
  ⟨"u64", "uint64_t", 6, true, "cstdint"⟩,
  ⟨"u8", "uint8_t", 2, true, "cstdint"⟩,
  ⟨"uint", "unsigned int", 4, true, ""⟩,
  ⟨"ulong", "unsigned long", 5, true, ""⟩,
  ⟨"ushort", "unsigned short", 3, true, ""⟩,
  ⟨"void", "void", 0, false, ""⟩]

def defaultNamespaces : List (String × Bool) := [
  ("std", true),
  ("std.chrono", true),
  ("std.filesystem", true),
  ("std.ranges", true),
  ("std.this_thread", true)]

def defaultIncludes : List (String × String) := [
  ("printf", "cstdio"),
  ("std.array", "array"),
  ("std.cerr", "iostream"),
  ("std.chrono", "chrono"),
  ("std.cin", "iostream"),
  ("std.cout", "iostream"),
  ("std.deque", "deque"),
  ("std.endl", "iostream"),
  ("std.filesystem", "filesystem"),
  ("std.function", "functional"),
  ("std.list", "list"),
  ("std.make_pair", "utility"),
  ("std.make_shared", "memory"),
  ("std.make_tuple", "tuple"),
  ("std.make_unique", "memory"),
  ("std.map", "map"),
  ("std.move", "utility"),
  ("std.mutex", "mutex"),
  ("std.optional", "optional"),
  ("std.pair", "utility"),
  ("std.queue", "queue"),
  ("std.set", "set"),
  ("std.shared_ptr", "memory"),
  ("std.sort", "algorithm"),
  ("std.stack", "stack"),
  ("std.string", "string"),
  ("std.thread", "thread"),
  ("std.to_string", "string"),
  ("std.tuple", "tuple"),
  ("std.unique_ptr", "memory"),
  ("std.unordered_map", "unordered_map"),
  ("std.unordered_set", "unordered_set"),
  ("std.vector", "vector")]

def defaultFeatures : List (String × String) := [
  ("function", "functional"),
  ("move", "utility"),
  ("shared", "memory"),
  ("tuple", "tuple"),
  ("unique", "memory")]

def defaultOperators : List Binding := [
  ⟨"!=", 9, false⟩,
  ⟨"%", 13, false⟩,
  ⟨"%=", 2, true⟩,
  ⟨"&", 8, false⟩,
  ⟨"&&", 5, false⟩,
  ⟨"&=", 2, true⟩,
  ⟨"*", 13, false⟩,
  ⟨"*=", 2, true⟩,
  ⟨"+", 12, false⟩,
  ⟨"+=", 2, true⟩,
  ⟨"-", 12, false⟩,
  ⟨"-=", 2, true⟩,
  ⟨"..", 1, true⟩,
  ⟨"/", 13, false⟩,
  ⟨"/=", 2, true⟩,
  ⟨"<", 10, false⟩,
  ⟨"<<", 11, false⟩,
  ⟨"<<=", 2, true⟩,
  ⟨"<=", 10, false⟩,
  ⟨"=", 2, true⟩,
  ⟨"==", 9, false⟩,
  ⟨">", 10, false⟩,
  ⟨">=", 10, false⟩,
  ⟨">>", 11, false⟩,
  ⟨">>=", 2, true⟩,
  ⟨"?", 3, true⟩,
  ⟨"^", 7, false⟩,
  ⟨"^=", 2, true⟩,
  ⟨"|", 6, false⟩,
  ⟨"|=", 2, true⟩,
  ⟨"||", 4, false⟩]

/-- The table without overlays. -/
def default : Table :=
  ⟨defaultPrimitives, defaultNamespaces, defaultIncludes, defaultFeatures, defaultOperators⟩

end TastyLang.Table
