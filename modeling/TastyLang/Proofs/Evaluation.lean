import TastyLang.Reading.Declarations

/-!
# Texts at hand

What a given text is read as can be computed, and the examples of this library do so. `Token.lexeme`
compares a word with all reserved words and a mark with the symbols of all operators, which takes
long. The tables of this module have both by their first characters, and `Token.scanAt` looks them up
there. The tokens that it finds are those of the text (`Token.stream_ofList`).
-/

namespace TastyLang

namespace Token

/-- The reserved words by their first characters: what follows, and the kind. -/
def wordTable : List (Char × List (List Char × Kind)) :=
  [('a', [(['b', 's', 't', 'r', 'a', 'c', 't'], .keyword .kAbstract), (['s'], .keyword .kAs),
      (['s', 's', 'u', 'm', 'e'], .keyword .kAssume),
      (['t', 't', 'r', 'i', 'b', 'u', 't', 'e'], .keyword .kAttribute),
      (['u', 't', 'o', 'p', 't', 'r'], .storage .autoptr)]),
    ('b', [(['r', 'e', 'a', 'k'], .keyword .kBreak),
      (['o', 'r', 'r', 'o', 'w'], .storage .borrow)]),
    ('c', [(['l', 'a', 's', 's'], .keyword .kClass),
      (['o', 'n', 't', 'a', 'i', 'n'], .keyword .kContain),
      (['o', 'n', 't', 'i', 'n', 'u', 'e'], .keyword .kContinue),
      (['o', 'p', 'y'], .storage .copy), (['o', 'n', 's', 't'], .modifier .const),
      (['o', 'n', 's', 't', 'e', 'x', 'p', 'r'], .modifier .constexpr),
      (['o', 'n', 's', 't', 'i', 'n', 'i', 't'], .modifier .constinit)]),
    ('d', [(['e', 'c'], .keyword .kDec), (['e', 'c', 't', 'o'], .keyword .kDecto),
      (['e', 'l', 'e', 't', 'e'], .keyword .kDelete),
      (['e', 'r', 'i', 'v', 'e'], .keyword .kDerive)]),
    ('e', [(['l', 's', 'e'], .keyword .kElse), (['n', 'u', 'm'], .keyword .kEnum),
      (['x', 't', 'e', 'r', 'n'], .modifier .external)]),
    ('f', [(['a', 'l', 's', 'e'], .keyword .kFalse), (['n'], .keyword .kFn),
      (['o', 'r'], .keyword .kFor)]),
    ('i', [(['f'], .keyword .kIf), (['m', 'p', 'o', 'r', 't'], .keyword .kImport),
      (['n', 'c'], .keyword .kInc), (['n', 'c', 'l', 'u', 'd', 'e'], .keyword .kInclude),
      (['n', 'c', 't', 'o'], .keyword .kIncto), (['n', 'j', 'e', 'c', 't'], .keyword .kInject),
      (['n', 'l', 'i', 'n', 'e'], .modifier .inline)]),
    ('l', [(['o', 'o', 'p'], .keyword .kLoop), (['e', 't'], .storage .letCopy)]),
    ('m', [(['o', 'v', 'e'], .storage .move),
      (['u', 't', 'a', 'b', 'l', 'e'], .modifier .mutable)]),
    ('n', [(['a', 'm', 'e', 's', 'p', 'a', 'c', 'e'], .keyword .kNamespace),
      (['e', 'w'], .keyword .kNew), (['u', 'l', 'l'], .keyword .kNull)]),
    ('o', [(['p', 'e', 'r', 'a', 't', 'o', 'r'], .keyword .kOperator)]),
    ('p', [(['t', 'r'], .storage .ptr), (['t', 'r', '2'], .storage .ptr),
      (['t', 'r', '3'], .storage .ptr), (['t', 'r', '4'], .storage .ptr),
      (['t', 'r', '5'], .storage .ptr), (['t', 'r', '6'], .storage .ptr),
      (['t', 'r', '7'], .storage .ptr), (['t', 'r', '8'], .storage .ptr),
      (['t', 'r', '9'], .storage .ptr)]),
    ('r', [(['e', 'f', 'u', 'r', 'b', 'i', 's', 'h'], .keyword .kRefurbish),
      (['e', 't', 'u', 'r', 'n'], .keyword .kReturn), (['e', 'f'], .storage .ref)]),
    ('s', [(['e', 'l', 'f'], .keyword .kSelf), (['t', 'a', 't', 'i', 'c'], .modifier .static)]),
    ('t', [(['r', 'u', 'e'], .keyword .kTrue),
      (['h', 'r', 'e', 'a', 'd', '_', 'l', 'o', 'c', 'a', 'l'], .modifier .threadLocal)]),
    ('u', [(['n', 'l', 'e', 's', 's'], .keyword .kUnless),
      (['n', 't', 'i', 'l'], .keyword .kUntil),
      (['n', 'i', 'q', 'u', 'e', 'p', 't', 'r'], .storage .uniqueptr)]),
    ('v', [(['i', 'r', 't', 'u', 'a', 'l'], .modifier .virtual),
      (['o', 'l', 'a', 't', 'i', 'l', 'e'], .modifier .volatile)]),
    ('w', [(['h', 'i', 'l', 'e'], .keyword .kWhile)])]

/-- The operators by the first characters of their symbols: what follows, the longest first. -/
def markTable : List (Char × List (List Char × Operator)) :=
  [('(', [([], .openParen)]), (')', [([], .closeParen)]), ('\x7b', [([], .openBrace)]),
    ('\x7d', [([], .closeBrace)]), (';', [([], .semicolon)]),
    (':', [([':'], .scope), ([], .colon)]), (',', [([], .comma)]),
    ('.', [(['.'], .range), ([], .dot)]), ('=', [(['='], .equal), ([], .assign)]),
    ('+', [(['+'], .increment), (['='], .plusAssign), ([], .plus)]),
    ('-', [(['-'], .decrement), (['='], .minusAssign), (['>'], .arrow), ([], .minus)]),
    ('*', [(['='], .starAssign), ([], .star)]), ('/', [(['='], .slashAssign), ([], .slash)]),
    ('%', [(['='], .percentAssign), ([], .percent)]),
    ('&', [(['='], .ampAssign), (['&'], .logicalAnd), ([], .amp)]),
    ('|', [(['='], .pipeAssign), (['|'], .logicalOr), ([], .pipe)]),
    ('^', [(['='], .caretAssign), ([], .caret)]),
    ('<', [(['<', '='], .shiftLeftAssign), (['='], .lessEqual), (['<'], .shiftLeft), ([], .less)]),
    ('>', [(['>', '='], .shiftRightAssign), (['='], .greaterEqual), (['>'], .shiftRight),
      ([], .greater)]),
    ('!', [(['='], .notEqual), ([], .not)]), ('~', [([], .tilde)]), ('?', [([], .question)]),
    ('@', [([], .atSign)]), ('[', [([], .openBracket)]), (']', [([], .closeBracket)])]

/-! ### Tables -/

/-- What a table has under a character. -/
def entries {α : Type} (c : Char) : List (Char × List α) → List α
  | [] => []
  | (d, xs) :: rest => if d = c then xs else entries c rest

theorem entries_cases {α : Type} (c : Char) (table : List (Char × List α)) :
    (c, entries c table) ∈ table ∨ entries c table = [] ∧ ∀ g ∈ table, g.1 ≠ c := by
  fun_induction entries c table with
  | case1 => exact .inr ⟨rfl, nofun⟩
  | case2 xs rest => exact .inl List.mem_cons_self
  | case3 d xs rest other ih =>
    rcases ih with listed | ⟨none, others⟩
    · exact .inl (List.mem_cons_of_mem _ listed)
    · exact .inr ⟨none, List.forall_mem_cons.mpr ⟨other, others⟩⟩

/-- The table has all of a list: each group is what of the list starts with its character. -/
structure TableOf {α : Type} (table : List (Char × List (List Char × α)))
    (all : List (List Char × α)) : Prop where
  groups : ∀ g ∈ table, (g.2.map fun p => (g.1 :: p.1, p.2)) = all.filter (·.1.head? == some g.1)
  keys : ∀ p ∈ all, ∃ g ∈ table, p.1.head? = some g.1

theorem TableOf.find? {α : Type} {table : List (Char × List (List Char × α))}
    {all : List (List Char × α)} (h : TableOf table all) (test : List Char → Bool) (c : Char)
    (first : ∀ p ∈ all, test p.1 = true → p.1.head? = some c) : all.find? (test ·.1) =
      ((entries c table).find? fun p => test (c :: p.1)).map fun p => (c :: p.1, p.2) := by
  have here : (entries c table).map (fun p => (c :: p.1, p.2)) =
      all.filter (·.1.head? == some c) := by
    rcases entries_cases c table with listed | ⟨none, others⟩
    · exact h.groups _ listed
    · rw [none, List.map_nil, eq_comm, List.filter_eq_nil_iff]
      intro p inside same
      obtain ⟨g, listed, head⟩ := h.keys p inside
      rw [head, beq_iff_eq, Option.some.injEq] at same
      exact others g listed same
  have tested : all.filter (test ·.1) = (all.filter (·.1.head? == some c)).filter (test ·.1) := by
    rw [List.filter_filter]
    refine List.filter_congr fun p inside => ?_
    cases passes : test p.1 with
    | false => rfl
    | true => simp [first p inside passes]
  rw [← List.head?_filter, tested, List.head?_filter, ← here, List.find?_map]
  rfl

/-! ### Words and marks -/

/-- The words that are not names, with their kinds. -/
def spelledWords : List (List Char × Kind) :=
  Kind.reserved.map (fun k => (k.name.toList, k)) ++
    Kind.pointerWords.map fun s => (s.toList, .storage .ptr)

/-- The symbols of all operators, the longest first. -/
def spelledMarks : List (List Char × Operator) := [3, 2, 1].flatMap fun n =>
  (Operator.all.filter (·.symbol.length == n)).map fun o => (o.symbol.toList, o)

theorem wordTable_whole : TableOf wordTable spelledWords := by constructor <;> decide +kernel

theorem markTable_whole : TableOf markTable spelledMarks := by constructor <;> decide +kernel

/-- The kind of the word that starts with `c` and goes on with `cs`. -/
def wordKind (c : Char) (cs : List Char) : Kind :=
  match (entries c wordTable).find? (·.1 == cs) with
  | some p => p.2
  | none => .ident

/-- The operator at the head of `c :: cs`, with what of its symbol follows `c`. -/
def mark? (c : Char) (cs : List Char) : Option (List Char × Operator) :=
  (entries c markTable).find? (·.1.isPrefixOf cs)

theorem ofWord_eq (cs : List Char) :
    Kind.ofWord (String.ofList cs) = ((spelledWords.find? (·.1 == cs)).map (·.2)).getD .ident := by
  have same (s : String) : (s.toList == cs) = (s == String.ofList cs) := by
    rw [Bool.eq_iff_iff, beq_iff_eq, beq_iff_eq, ← String.toList_inj, String.toList_ofList]
  rw [spelledWords, List.find?_append, List.find?_map, List.find?_map, Kind.ofWord]
  simp only [Function.comp_def, same]
  cases Kind.reserved.find? (·.name == String.ofList cs) with
  | some k => rfl
  | none =>
    cases found : Kind.pointerWords.find? (· == String.ofList cs) with
    | some w =>
      have same : w = String.ofList cs := by simpa using List.find?_some found
      exact if_pos (List.contains_iff_mem.mpr (same ▸ List.mem_of_find?_eq_some found))
    | none =>
      refine if_neg fun listed => ?_
      exact List.find?_eq_none.mp found _ (List.contains_iff_mem.mp listed) BEq.rfl

theorem wordKind_eq (c : Char) (cs : List Char) :
    wordKind c cs = Kind.ofWord (String.ofList (c :: cs)) := by
  have found := wordTable_whole.find? (· == c :: cs) c fun p _ same => by
    rw [eq_of_beq same]
    rfl
  rw [ofWord_eq, found, wordKind]
  simp only [List.cons_beq_cons, BEq.rfl, Bool.true_and]
  cases (entries c wordTable).find? (·.1 == cs) <;> rfl

theorem operatorAt?_eq (cs : List Char) :
    operatorAt? cs = (spelledMarks.find? (·.1.isPrefixOf cs)).map (·.2) := by
  have ofLength (n : Nat) : (Operator.all.find? fun o =>
      o.symbol.length == n && startsWithOperator cs o) =
      (((Operator.all.filter (·.symbol.length == n)).map fun o => (o.symbol.toList, o)).find?
        (·.1.isPrefixOf cs)).map (·.2) := by
    rw [List.find?_map, List.find?_filter, Option.map_map]
    have own : ((·.2) ∘ fun o : Operator => (o.symbol.toList, o)) = id := rfl
    rw [own, Option.map_id, id]
    simp only [startsWithOperator, Bool.decide_and, Bool.decide_eq_true, Function.comp_apply]
  simp only [operatorAt?, spelledMarks, List.flatMap_cons, List.flatMap_nil, List.append_nil,
    List.find?_append, ofLength, Option.map_or]

theorem mark?_eq (c : Char) (cs : List Char) :
    operatorAt? (c :: cs) = (mark? c cs).map (·.2) := by
  have found := markTable_whole.find? (·.isPrefixOf (c :: cs)) c fun p inside starts => by
    obtain ⟨g, -, head⟩ := markTable_whole.keys p inside
    obtain ⟨ds, same⟩ := List.head?_eq_some_iff.mp head
    rw [same, List.isPrefixOf_cons_cons, Bool.and_eq_true, beq_iff_eq] at starts
    rw [same, starts.1]
    rfl
  rw [operatorAt?_eq, found, Option.map_map, mark?]
  simp only [List.isPrefixOf_cons_cons, BEq.rfl, Bool.true_and]
  rfl

theorem mark?_listed {c : Char} {cs : List Char} {p : List Char × Operator}
    (h : mark? c cs = some p) :
    (∃ g ∈ markTable, g.1 = c) ∧ p.2.symbol.toList = c :: p.1 := by
  have inside := List.mem_of_find?_eq_some h
  rcases entries_cases c markTable with listed | ⟨none, -⟩
  · refine ⟨⟨_, listed, rfl⟩, ?_⟩
    have spelled : (c :: p.1, p.2) ∈ spelledMarks.filter (·.1.head? == some c) :=
      markTable_whole.groups _ listed ▸ List.mem_map_of_mem inside
    obtain ⟨n, -, symbol⟩ := List.mem_flatMap.mp (List.mem_filter.mp spelled).1
    obtain ⟨o, -, same⟩ := List.mem_map.mp symbol
    obtain ⟨same, rfl⟩ := Prod.mk.inj same
    exact same
  · rw [none] at inside
    cases inside

/-! ### Tokens -/

/-- `lexeme` with words and marks looked up. -/
def lexemeAt (prev : Kind) (c : Char) (cs : List Char) : Except ScanError.Cause Lexeme :=
  if isWordStart c then
    let more := run isWordChar cs
    .ok ⟨wordKind c (cs.take more), more, 0⟩
  else if prev = .keyword .kInject || c = '-' && cs.head?.any Text.isDigit then lexeme prev c cs
  else
    match mark? c cs with
    | some p => .ok ⟨.op p.2, p.1.length, 0⟩
    | none => lexeme prev c cs

theorem lexemeAt_eq (prev : Kind) (c : Char) (cs : List Char) :
    lexemeAt prev c cs = lexeme prev c cs := by
  unfold lexemeAt
  split
  · next word =>
    have other : ∀ d ∈ ['\x7b', '-', '"', '\x27'], c ≠ d := by
      have no : ['\x7b', '-', '"', '\x27'].all (!isWordStart ·) = true := by decide
      rintro d listed rfl
      simpa [word] using List.all_eq_true.mp no c listed
    simp only [List.forall_mem_cons] at other
    simp [lexeme, word, wordKind_eq, other]
  · next word =>
    split
    · rfl
    · next plain =>
      split
      · next p found =>
        obtain ⟨⟨g, listed, rfl⟩, symbol⟩ := mark?_listed found
        have other : ∀ g ∈ markTable, g.1 ≠ '"' ∧ g.1 ≠ '\x27' ∧ ¬ Text.isDigit g.1 = true := by
          decide
        obtain ⟨quote, quote', digit⟩ := other g listed
        have length : p.1.length = p.2.symbol.length - 1 := by
          rw [← String.length_toList, symbol, List.length_cons, Nat.add_sub_cancel]
        have here : operatorAt? (g.1 :: cs) = some p.2 := by
          rw [mark?_eq, found]
          rfl
        rw [length]
        simp_all [lexeme]
      · rfl

/-- `scanFrom` with words and marks looked up. -/
def scanAt (prev : Kind) (pos : Pos) (cs : List Char) : Stream :=
  match _h : gap .blank pos cs with
  | .error e => ⟨[], .error e⟩
  | .ok (start, []) => ⟨[], .ok start⟩
  | .ok (start, c :: rest) =>
    match lexemeAt prev c rest with
    | .error cause => ⟨[], .error ⟨cause, start⟩⟩
    | .ok l =>
      let text := c :: rest.take l.more
      let literal := (text.drop l.fence).take (text.length - 2 * l.fence)
      Stream.cons ⟨l.kind, String.ofList literal, start⟩
        (scanAt l.kind (start.afterAll text) (rest.drop l.more))
termination_by cs.length
decreasing_by
  have := length_gap _h
  simp only [List.length_cons, List.length_drop] at *
  omega

theorem scanAt_eq (prev : Kind) (pos : Pos) (cs : List Char) :
    scanAt prev pos cs = scanFrom prev pos cs := by
  fun_induction scanAt prev pos cs with
  | case4 prev pos cs start c rest gone l here text literal ih =>
    rw [lexemeAt_eq] at here
    rw [ih, scanFrom.eq_def prev pos cs]
    split
    · next failed => cases gone.symm.trans failed
    · next ended => cases gone.symm.trans ended
    · next found =>
      cases gone.symm.trans found
      rw [here]
  | _ =>
    rw [scanFrom]
    split <;> simp_all [lexemeAt_eq]

theorem stream_ofList (cs : List Char) : stream (String.ofList cs) = scanAt .eof .first cs := by
  rw [stream, String.toList_ofList, scanAt_eq]

end Token

theorem Reader.run_ofList {α : Type} (cs : List Char) (reader : Nat → Reader α) :
    Reader.run (String.ofList cs) reader = (do
      let s := Token.scanAt .eof .first cs
      let start ← Cursor.checked { rest := s.tokens, stop := s.stop }
      return (← StateT.run (reader (start.weight + 2)) start).1) := by
  rw [Reader.run, Token.stream_ofList]

theorem append_ofList {s t : String} {cs ds : List Char} (first : s = .ofList cs)
    (second : t = .ofList ds) : s ++ t = .ofList (cs ++ ds) := by
  rw [first, second, String.ofList_append]

theorem File.read_ofList (table : Table) (name : String) (cs : List Char) :
    File.read table name (String.ofList cs) = (do
      let s := Token.scanAt .eof .first cs
      let start ← Cursor.checked { rest := s.tokens, stop := s.stop }
      let n := start.weight + 2
      return (← StateT.run (do
        let start ← Reader.pos
        let ds ← Reader.decls ⟨table, cs, n⟩ n
        return ⟨⟨start, ← Reader.pos⟩, name, ds⟩) start).1) := by
  rw [File.read, Reader.run_ofList, String.toList_ofList]

end TastyLang
