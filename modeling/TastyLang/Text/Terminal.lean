import TastyLang.Text.Clusters
import TastyLang.Text.Utf8

/-!
# Text on a terminal

Control sequences take no column on a terminal. `shownWidth` follows them byte by byte and counts
the clusters between them.
-/

namespace TastyLang.Text

/-- Where a terminal is inside of a control sequence. -/
inductive Control where
  /-- outside of all sequences -/
  | ground
  | escape
  | escapeMore
  | sequence
  | sequenceNumbers
  | sequenceMore
  | device
  | deviceNumbers
  | deviceMore
  /-- data for a device or a program, up to the mark of its end -/
  | data
  /-- a command for the system, which a bell ends too -/
  | command
  deriving DecidableEq, Inhabited

namespace Control

/-- Whether a terminal passes all characters over. -/
def isData : Control → Bool
  | data | command => true
  | _ => false

/-- The state after a byte that means the same everywhere outside of data. -/
def anywhere? (b : Nat) : Option Control :=
  if b = 0x1B then some escape
  else if b = 0x90 then some device
  else if b = 0x9B then some sequence
  else if b = 0x9D then some command
  else if b = 0x98 || b = 0x9E || b = 0x9F then some data
  else if b = 0x18 || b = 0x1A || 0x80 ≤ b then some ground
  else none

/-- The state after a byte inside of data. -/
def dataStep (s : Control) (b : Nat) : Control :=
  if b = 0x1B then escape
  else if b = 0x18 || b = 0x1A || b = 0x9C || (s = command && b = 0x07) then ground
  else s

/-- The state after a printing character, when a terminal is inside of a sequence. -/
def inner (s : Control) (b : Nat) : Control :=
  match s with
  | ground => ground
  | escape =>
    if b < 0x30 then escapeMore
    else if b = 0x50 then device
    else if b = 0x5B then sequence
    else if b = 0x5D then command
    else if b = 0x58 || b = 0x5E || b = 0x5F then data
    else ground
  | escapeMore => if b < 0x30 then escapeMore else ground
  | sequence | sequenceNumbers =>
    if b < 0x30 then sequenceMore else if b < 0x40 then sequenceNumbers else ground
  | sequenceMore => if b < 0x30 then sequenceMore else ground
  | device | deviceNumbers =>
    if b < 0x30 then deviceMore else if b < 0x40 then deviceNumbers else data
  | deviceMore => if b < 0x30 then deviceMore else data
  | data | command => s

/-- The state after a byte. -/
def step (s : Control) (b : Nat) : Control :=
  if s.isData then s.dataStep b
  else if s = device && (b = 0x1B || (0x08 ≤ b && b ≤ 0x0D)) then data
  else
    match anywhere? b with
    | some t => t
    | none => if 0x20 ≤ b && b < 0x7F then s.inner b else s

/-- Whether a byte is shown. -/
def shows (s : Control) (b : Nat) : Bool := s = ground && 0x20 ≤ b && b < 0x7F

end Control

/-- The number of columns of a text from a state on. Each step takes a character at least. -/
def shownFrom : Nat → Control → List Char → Nat
  | 0, _, _ => 0
  | _ + 1, _, [] => 0
  | n + 1, s, c :: cs =>
    if c.toNat < 0x80 then
      (s.shows c.toNat).toNat + shownFrom n (s.step c.toNat) cs
    else if s.isData then shownFrom n ((utf8Bytes c).foldl Control.step s) cs
    else
      let (columns, rest) := firstCluster (c :: cs)
      columns + shownFrom n .ground rest

/-- The number of columns of a text on a terminal. -/
def shownWidth (cs : List Char) : Nat := shownFrom cs.length .ground cs

end TastyLang.Text

/-! ### Text in a style

What a terminal shows for text in a style, without the colours: tabs are four blanks, a line end is
one character, and the lines of a longer text are filled up to the same width.
-/

namespace TastyLang.Report

/-- The characters with a line end of two characters made one. -/
def unixLines : List Char → List Char
  | '\r' :: '\n' :: cs => '\n' :: unixLines cs
  | c :: cs => c :: unixLines cs
  | [] => []

def styled (s : String) : String :=
  let text := Text.replaceChar '\t' "    " s
  match Text.cutChars '\n' (unixLines text.toList) with
  | [line] => String.ofList line
  | lines =>
    let widest := (lines.map Text.shownWidth).foldl max 0
    Text.join "\n" (lines.map fun l =>
      String.ofList (l ++ List.replicate (widest - Text.shownWidth l) ' '))

end TastyLang.Report
