import TastyLang.Token.Basic
import TastyLang.Text.Decimal
import TastyLang.Text.Pieces

/-!
# Storage and modifiers

`Storage` says how a variable owns its value, `Modifiers` is the set of modifier words in front of
a declaration.
-/

namespace TastyLang

/-- The forms of ownership. `unresolved` is what a declaration without a storage word has until
one is settled. -/
inductive Storage.Kind where
  | unresolved
  | value
  | reference (isConst : Bool)
  | moved
  | rawPointer (level : Nat)
  | shared
  | unique
  deriving DecidableEq, Inhabited

/-- A form of ownership and the word it was written with, if any. -/
structure Storage where
  kind : Storage.Kind := .unresolved
  word : String := ""
  deriving DecidableEq, Inhabited

namespace Storage

def Kind.name : Kind → String
  | unresolved => "unresolved"
  | value => "value"
  | reference _ => "reference"
  | moved => "moved"
  | rawPointer _ => "raw-pointer"
  | shared => "shared-smart-pointer"
  | unique => "unique-smart-pointer"

/-- How many pointers stand in a row; 0 for anything but a raw pointer. -/
def level (s : Storage) : Nat :=
  match s.kind with
  | .rawPointer n => n
  | _ => 0

def isConst (s : Storage) : Bool :=
  match s.kind with
  | .reference c => c
  | _ => false

def isUnresolved (s : Storage) : Bool := s.kind == .unresolved

/-- The word that was written, or the name of the form. -/
def text (s : Storage) : String := if s.word = "" then s.kind.name else s.word

/-- A plain value, as a parameter or loop variable without a storage word has it. -/
def plain : Storage := ⟨.value, ""⟩

/-- The storage itself, or a plain value when none was written. -/
def settled (s : Storage) : Storage := if s.isUnresolved then plain else s

/-- The storage that a token stands for. The pointer word carries its level, from 2 to 9; without
one it is a single pointer. -/
def ofToken? (t : Token) : Option Storage :=
  match t.kind with
  | .storage .copy | .storage .letCopy => some ⟨.value, t.literal⟩
  | .storage .ref => some ⟨.reference false, t.literal⟩
  | .storage .borrow => some ⟨.reference true, t.literal⟩
  | .storage .move => some ⟨.moved, t.literal⟩
  | .storage .ptr =>
    let level := Text.dropHead "ptr" t.literal
    if level = "" then some ⟨.rawPointer 1, t.literal⟩
    else
      match Text.integer? level with
      | some n => if 2 ≤ n && n ≤ 9 then some ⟨.rawPointer n.toNat, t.literal⟩ else none
      | none => none
  | .storage .autoptr => some ⟨.shared, t.literal⟩
  | .storage .uniqueptr => some ⟨.unique, t.literal⟩
  | _ => none

end Storage

/-- A set of modifiers. -/
structure Modifiers where
  members : List Modifier := []
  deriving Inhabited

namespace Modifiers

/-- The order in which modifiers are written in C++. -/
def writtenOrder : List Modifier :=
  [.static, .external, .inline, .virtual, .threadLocal, .mutable, .constexpr, .constinit,
    .volatile, .const]

def has (ms : Modifiers) (m : Modifier) : Bool := ms.members.contains m

def includes (ms of : Modifiers) : Bool := of.members.all ms.has

def insert (ms : Modifiers) (m : Modifier) : Modifiers :=
  if ms.has m then ms else ⟨ms.members ++ [m]⟩

def union (ms of : Modifiers) : Modifiers := of.members.foldl insert ms

def without (ms of : Modifiers) : Modifiers := ⟨ms.members.filter fun m => !of.has m⟩

/-- The members of the set that are in `of`. -/
def only (ms of : Modifiers) : Modifiers := ⟨ms.members.filter of.has⟩

/-- The modifiers as they stand in front of a C++ declaration, each with a blank after it. -/
def lead (ms : Modifiers) : String :=
  String.join ((writtenOrder.filter ms.has).map fun m => m.word ++ " ")

@[simp]
theorem has_insert (ms : Modifiers) (m x : Modifier) :
    (ms.insert m).has x = (ms.has x || x == m) := by
  unfold insert
  split
  · next h => by_cases hx : x = m <;> simp_all
  · by_cases hx : x = m <;> simp [has, hx]

end Modifiers

end TastyLang
