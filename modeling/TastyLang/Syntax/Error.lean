import TastyLang.Token.Scan

/-!
# Errors of reading a program

A text can fail to be a program because it cannot be cut into tokens, or because the tokens do
not form one. `ParseError` keeps the cause; the words are in `ParseError.detail`.
-/

namespace TastyLang

/-- What a program should have had at some place. -/
inductive Expectation where
  | token (k : Token.Kind)
  /-- a name that acts as a keyword in its place -/
  | word (w : String)
  | expression
  | declaration
  | storageWord
  | path
  | assumption
  | operatorSymbol
  deriving DecidableEq, Inhabited

def Token.Kind.expected : Token.Kind → String
  | .eof => "EOF"
  | .ident => "identifier"
  | .raw => "inject block"
  | k => Text.quote k.name

def Expectation.text : Expectation → String
  | token k => k.expected
  | word w => Text.quote w
  | expression => "expression"
  | declaration => "declaration"
  | storageWord => "storage keyword"
  | path => "path"
  | assumption => "namespace, class, variable or function"
  | operatorSymbol => "operator symbol"

/-- A token as messages show it. -/
def Token.described (t : Token) : String :=
  match t.kind with
  | .eof => "EOF"
  | .ident => s!"identifier {Text.quote t.literal}"
  | .number | .string | .character => t.literal
  | _ => Text.quote t.literal

/-- What closes an opening token. -/
def Token.Kind.closer : Token.Kind → String
  | .op .openParen => Text.quote ")"
  | .op .openBracket => Text.quote "]"
  | .op .openBrace => Text.quote "\x7d"
  | .op .less => Text.quote ">"
  | _ => ""

inductive ParseError.Cause where
  | unexpected (found : Token) (expected : Expectation)
  | notName (found : Token)
  | unclosed (opener found : Token)
  | arity (name : String) (want got : Nat)
  /-- a declaration that a class cannot hold -/
  | notMember (kindName : String)
  | invalidStorage (found : Token)
  | tupleIndex (found : Token)
  deriving DecidableEq, Inhabited

/-- A cause and the place it was noticed at. -/
structure ParseError where
  cause : ParseError.Cause
  pos : Pos
  deriving DecidableEq, Inhabited

namespace ParseError

/-- What was expected, in words. -/
def expected (e : ParseError) : String :=
  match e.cause with
  | .unexpected _ x => x.text
  | .notName _ => "identifier"
  | .unclosed opener _ => opener.kind.closer
  | .arity _ want _ => s!"{want} argument(s)"
  | .notMember _ => "class member"
  | .invalidStorage _ => "storage keyword"
  | .tupleIndex _ => "tuple index"

/-- What was found instead, in words. -/
def found (e : ParseError) : String :=
  match e.cause with
  | .unexpected t _ | .notName t | .unclosed _ t | .invalidStorage t | .tupleIndex t => t.described
  | .arity _ _ got => s!"{got} argument(s)"
  | .notMember kindName => kindName

def detail (e : ParseError) : String :=
  match e.cause with
  | .unexpected _ _ | .notMember _ => s!"unexpected token {e.found}, expected {e.expected}"
  | .notName _ => s!"expected identifier, found {e.found}"
  | .unclosed opener _ => s!"unclosed {opener.kind.expected} opened at line {opener.pos.line}"
  | .arity name want got => s!"attribute {name} takes {want} argument(s), got {got}"
  | .invalidStorage t => s!"invalid storage keyword {Text.quote t.literal}"
  | .tupleIndex t => s!"tuple index {Text.quote t.literal} out of range"

def message (e : ParseError) : String :=
  s!"parse error at line {e.pos.line}, column {e.pos.column}: {e.detail}"

def code (e : ParseError) : String :=
  match e.cause with
  | .unexpected _ _ | .notMember _ | .invalidStorage _ | .tupleIndex _ => "E201"
  | .notName _ => "E202"
  | .unclosed _ _ => "E203"
  | .arity _ _ _ => "E204"

end ParseError

/-- Why a text is no program. `exhausted` says that a reader was given too few steps for its
text. -/
inductive SyntaxError where
  | scan (e : Token.ScanError)
  | parse (e : ParseError)
  | exhausted
  deriving DecidableEq, Inhabited

def SyntaxError.message : SyntaxError → String
  | scan e => e.message
  | parse e => e.message
  | exhausted => "the program was not read to its end"

end TastyLang
