import TastyLang.Source.Position

/-!
# Tokens

The vocabulary of the surface language. A `Token.Kind` says what a token is: an end mark, a name,
a literal, an operator or a reserved word. Reserved words fall into plain keywords, storage words
(who owns a variable's value) and modifiers. Words such as `from` or `extends` that only mean
something in one place are ordinary names. `Kind.ofWord` classifies a word.
-/

namespace TastyLang

/-- Operators and delimiters. -/
inductive Operator where
  | plus | minus | star | slash | percent | increment | decrement
  | assign | plusAssign | minusAssign | starAssign | slashAssign | percentAssign
  | ampAssign | pipeAssign | caretAssign | shiftLeftAssign | shiftRightAssign
  | equal | notEqual | less | greater | lessEqual | greaterEqual
  | logicalAnd | logicalOr | not | amp | pipe | caret | tilde | shiftLeft | shiftRight
  | dot | arrow | scope | range | comma | semicolon | colon | question | atSign
  | openParen | closeParen | openBrace | closeBrace | openBracket | closeBracket
  deriving DecidableEq, Hashable, Inhabited

namespace Operator

def symbol : Operator → String
  | plus => "+" | minus => "-" | star => "*" | slash => "/" | percent => "%"
  | increment => "++" | decrement => "--"
  | assign => "=" | plusAssign => "+=" | minusAssign => "-=" | starAssign => "*="
  | slashAssign => "/=" | percentAssign => "%=" | ampAssign => "&=" | pipeAssign => "|="
  | caretAssign => "^=" | shiftLeftAssign => "<<=" | shiftRightAssign => ">>="
  | equal => "==" | notEqual => "!=" | less => "<" | greater => ">"
  | lessEqual => "<=" | greaterEqual => ">="
  | logicalAnd => "&&" | logicalOr => "||" | not => "!" | amp => "&" | pipe => "|"
  | caret => "^" | tilde => "~" | shiftLeft => "<<" | shiftRight => ">>"
  | dot => "." | arrow => "->" | scope => "::" | range => ".."
  | comma => "," | semicolon => ";" | colon => ":" | question => "?" | atSign => "@"
  | openParen => "(" | closeParen => ")" | openBrace => "\x7b" | closeBrace => "\x7d"
  | openBracket => "[" | closeBracket => "]"

/-- All operators, in the order of their numbers. -/
def all : List Operator :=
  [plus, minus, star, slash, percent, increment, decrement,
    assign, plusAssign, minusAssign, starAssign, slashAssign, percentAssign,
    ampAssign, pipeAssign, caretAssign, shiftLeftAssign, shiftRightAssign,
    equal, notEqual, less, greater, lessEqual, greaterEqual,
    logicalAnd, logicalOr, not, amp, pipe, caret, tilde, shiftLeft, shiftRight,
    dot, arrow, scope, range, comma, semicolon, colon, question, atSign,
    openParen, closeParen, openBrace, closeBrace, openBracket, closeBracket]

/-- `=` and the compound assignments. -/
def isAssignment : Operator → Bool
  | assign | plusAssign | minusAssign | starAssign | slashAssign | percentAssign
  | ampAssign | pipeAssign | caretAssign | shiftLeftAssign | shiftRightAssign => true
  | _ => false

theorem mem_all (o : Operator) : o ∈ all := by cases o <;> decide

end Operator

/-- Reserved words that are neither storage words nor modifiers. -/
inductive Keyword where
  | kAbstract | kAs | kAssume | kAttribute | kBreak | kClass | kContain | kContinue
  | kDec | kDecto | kDelete | kDerive | kElse | kEnum | kFalse | kFn | kFor | kIf | kImport
  | kInc | kInclude | kIncto | kInject | kLoop | kNamespace | kNew | kNull | kOperator
  | kRefurbish | kReturn | kSelf | kTrue | kUnless | kUntil | kWhile
  deriving DecidableEq, Hashable, Inhabited

namespace Keyword

def word : Keyword → String
  | kAbstract => "abstract" | kAs => "as" | kAssume => "assume" | kAttribute => "attribute"
  | kBreak => "break" | kClass => "class" | kContain => "contain" | kContinue => "continue"
  | kDec => "dec" | kDecto => "decto" | kDelete => "delete" | kDerive => "derive"
  | kElse => "else" | kEnum => "enum" | kFalse => "false" | kFn => "fn" | kFor => "for"
  | kIf => "if" | kImport => "import" | kInc => "inc" | kInclude => "include"
  | kIncto => "incto" | kInject => "inject" | kLoop => "loop" | kNamespace => "namespace"
  | kNew => "new" | kNull => "null" | kOperator => "operator" | kRefurbish => "refurbish"
  | kReturn => "return" | kSelf => "self" | kTrue => "true" | kUnless => "unless"
  | kUntil => "until" | kWhile => "while"

/-- All plain keywords, in the order of their numbers. -/
def all : List Keyword :=
  [kAbstract, kAs, kAssume, kAttribute, kBreak, kClass, kContain, kContinue,
    kDec, kDecto, kDelete, kDerive, kElse, kEnum, kFalse, kFn, kFor, kIf, kImport,
    kInc, kInclude, kIncto, kInject, kLoop, kNamespace, kNew, kNull, kOperator,
    kRefurbish, kReturn, kSelf, kTrue, kUnless, kUntil, kWhile]

end Keyword

/-- The words that say how a variable owns its value. -/
inductive StorageWord where
  | copy | letCopy | ref | borrow | move | ptr | autoptr | uniqueptr
  deriving DecidableEq, Hashable, Inhabited

namespace StorageWord

def word : StorageWord → String
  | copy => "copy" | letCopy => "let" | ref => "ref" | borrow => "borrow" | move => "move"
  | ptr => "ptr" | autoptr => "autoptr" | uniqueptr => "uniqueptr"

/-- All storage words, in the order of their numbers. -/
def all : List StorageWord := [copy, letCopy, ref, borrow, move, ptr, autoptr, uniqueptr]

end StorageWord

/-- The words that modify a declaration. -/
inductive Modifier where
  | const | constexpr | constinit | external | inline | mutable | static | threadLocal
  | virtual | volatile
  deriving DecidableEq, Hashable, Inhabited

namespace Modifier

def word : Modifier → String
  | const => "const" | constexpr => "constexpr" | constinit => "constinit"
  | external => "extern" | inline => "inline" | mutable => "mutable" | static => "static"
  | threadLocal => "thread_local" | virtual => "virtual" | volatile => "volatile"

/-- All modifiers, in the order of their numbers. -/
def all : List Modifier :=
  [const, constexpr, constinit, external, inline, mutable, static, threadLocal, virtual, volatile]

end Modifier

namespace Token

/-- What a token is. -/
inductive Kind where
  | eof
  | illegal
  | ident
  | number
  | string
  | character
  /-- verbatim text captured after `inject` -/
  | raw
  | op (o : Operator)
  | keyword (k : Keyword)
  | storage (w : StorageWord)
  | modifier (m : Modifier)
  deriving DecidableEq, Hashable, Inhabited

namespace Kind

/-- The name of a kind: its spelling when there is only one. -/
def name : Kind → String
  | eof => "EOF"
  | illegal => "ILLEGAL"
  | ident => "IDENT"
  | number => "NUMBER"
  | string => "STRING"
  | character => "CHAR"
  | raw => "RAW"
  | op o => o.symbol
  | keyword k => k.word
  | storage w => w.word
  | modifier m => m.word

/-- The reserved words. -/
def reserved : List Kind :=
  Keyword.all.map keyword ++ StorageWord.all.map storage ++ Modifier.all.map modifier

/-- All kinds, in the order of their numbers. -/
def all : List Kind :=
  [eof, illegal, ident, number, string, character, raw] ++ Operator.all.map op ++ reserved

def ofNumber? (n : Int) : Option Kind :=
  if n < 0 then none else all[n.toNat]?

def ofName? (s : String) : Option Kind := all.find? fun k => k.name == s

/-- The spellings of pointers to pointers. -/
def pointerWords : List String :=
  ["ptr2", "ptr3", "ptr4", "ptr5", "ptr6", "ptr7", "ptr8", "ptr9"]

/-- The kind of a word: reserved, or a name. -/
def ofWord (s : String) : Kind :=
  match reserved.find? fun k => k.name == s with
  | some k => k
  | none => if pointerWords.contains s then storage .ptr else ident

def isReserved : Kind → Bool
  | keyword _ | storage _ | modifier _ => true
  | _ => false

def isOperator : Kind → Bool
  | op _ => true
  | _ => false

def isStorage : Kind → Bool
  | storage _ => true
  | _ => false

def isModifier : Kind → Bool
  | modifier _ => true
  | _ => false

def isAssignment : Kind → Bool
  | op o => o.isAssignment
  | _ => false

/-- Whether a token of this kind can end an operand. After one, a minus sign is an operator. -/
def endsOperand : Kind → Bool
  | ident | number | string | character => true
  | op .closeParen | op .closeBracket | op .increment | op .decrement => true
  | keyword .kSelf | keyword .kTrue | keyword .kFalse | keyword .kNull => true
  | _ => false

end Kind

end Token

/-- A piece of source text with its kind and the place where it starts. The literal of a captured
block is what stands between its braces. -/
structure Token where
  kind : Token.Kind := .eof
  literal : String := ""
  pos : Pos := {}
  deriving DecidableEq, Inhabited

namespace Token

/-- The place right after the token. A captured block ends after its closing brace and may run
over lines; every other token counts as one line. -/
def stop (t : Token) : Pos :=
  match t.kind with
  | .raw =>
    let cs := t.literal.toList
    let size := t.literal.utf8ByteSize
    let offset := t.pos.offset + size + 2
    match cs.count '\n' with
    | 0 => ⟨t.pos.line, t.pos.column + size + 2, offset⟩
    | n =>
      let lastLine := cs.reverse.takeWhile (· ≠ '\n')
      ⟨t.pos.line + n, (String.ofList lastLine).utf8ByteSize + 2, offset⟩
  | _ => t.pos.shift t.literal.utf8ByteSize

end Token

end TastyLang
