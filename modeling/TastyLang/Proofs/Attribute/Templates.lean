import TastyLang.Proofs.Attribute.Composition
import TastyLang.Proofs.Attribute.Placeholders
import TastyLang.Proofs.Text.Literals

/-!
# Templates

A directive takes its text from a literal, a template. The placeholders of the template are replaced
twice: in the literal as it is written, and again in the text that it spells. `templates_filled_iff` says
for which arguments that comes to putting the arguments in the places of the placeholders.
-/

namespace TastyLang

namespace Attribute

open Text

variable {env : Env} {name : String} {v : String} {body cs dv : List Char}

/-- What a directive generates from a literal where `env` binds the parameters. -/
def generated (body : List Char) (env : Env) : String :=
  substitute (unquoted (bindArg (literal body) env)) env

/-- A value that stands in a literal for a text whose placeholders give the value back. -/
def Neutral (env : Env) (v : String) : Prop :=
  ∃ dv, Spells v.toList (dv.flatMap utf8Bytes) ∧ leavesOpen dv = false ∧ substituteChars env dv = v.toList

/-! ### Clear texts -/

theorem clear_of_count (few : cs.count '[' ≤ 1) : Clear env cs := by
  rintro before name v after - rfl
  refine Bool.eq_false_iff.mpr fun opened => ?_
  obtain ⟨front, behind, rfl, -, -⟩ := leavesOpen_cut opened
  simp [placeholder] at few
  omega

theorem leavesOpen_placeholder (name : String) (cs : List Char) :
    leavesOpen (cs ++ placeholder name) = false := by
  have whole : cs ++ placeholder name = (cs ++ '[' :: name.toList) ++ ']' :: [] := by simp [placeholder]
  rw [whole, leavesOpen_closed]
  rfl

theorem Clear.append {cs ds : List Char} (words : env.Words) (closed : leavesOpen cs = false)
    (first : Clear env cs) (second : Clear env ds) : Clear env (cs ++ ds) := by
  intro before name v after bound same
  rw [List.append_assoc] at same
  rcases List.append_eq_append_iff.mp same with ⟨more, rfl, rest⟩ | ⟨more, rfl, rest⟩
  · have open_ := second more name v after bound (by rw [rest, List.append_assoc])
    rw [leavesOpen_append]
    split
    · exact closed
    · exact open_
  · rcases List.append_eq_append_iff.mp rest with ⟨more', rfl, -⟩ | ⟨more', inside, rfl⟩
    · exact first before name v more' bound (by rw [List.append_assoc])
    · cases more with
      | nil =>
        rw [List.append_nil] at closed
        exact closed
      | cons c more =>
        -- the placeholder would begin in the first text and end in the second
        simp only [placeholder, List.cons_append, List.cons.injEq] at inside
        obtain ⟨rfl, inside⟩ := inside
        by_cases closing : ']' ∈ more
        · obtain ⟨front, rest, rfl, free⟩ := List.eq_append_cons_of_mem closing
          rw [List.append_assoc] at inside
          obtain ⟨rfl, ended⟩ := cut_unique (words.noClosing bound) free inside
          obtain ⟨rfl, rfl⟩ := List.append_eq_nil_iff.mp ended.symm
          exact first before name v [] bound (by simp [placeholder])
        · rw [leavesOpen_opened before closing] at closed
          cases closed

/-! ### Literals with their placeholders replaced -/

theorem substituteChars_concat {d : Char} (opening : d ≠ '[') (closing : d ≠ ']') :
    substituteChars env (cs ++ [d]) = substituteChars env cs ++ [d] := by
  have alone : substituteChars env [d] = [d] := by
    rw [substituteChars_other opening, substituteChars]
  cases opened : leavesOpen cs with
  | false => rw [substituteChars_append opened, alone]
  | true =>
    obtain ⟨front, behind, rfl, closed, unclosed⟩ := leavesOpen_cut opened
    have unclosed' : ']' ∉ behind ++ [d] := by simp [unclosed, closing.symm]
    rw [List.append_assoc, List.cons_append, substituteChars_append closed,
      substituteChars_append closed, substituteChars_opened unclosed, substituteChars_opened unclosed',
      List.append_assoc, List.cons_append]

theorem bindArg_literal (words : env.Words) (body : List Char) :
    bindArg (literal body) env = literal (substituteChars env body) := by
  have unbound : env.lookup (literal body) = none := by
    cases found : env.lookup (literal body) with
    | none => rfl
    | some v =>
      have quote := words.avoids found (c := '"') (by decide)
      simp [literal] at quote
  unfold bindArg
  dsimp only
  rw [trim_literal, unbound]
  dsimp only
  rw [substitute_eq, literal, String.toList_ofList, substituteChars_other (by decide),
    substituteChars_concat (by decide) (by decide)]
  rfl

theorem generated_of_spells (words : env.Words)
    (spells : Spells (substituteChars env body) (cs.flatMap utf8Bytes)) :
    generated body env = String.ofList (substituteChars env cs) := by
  rw [generated, bindArg_literal words, spells.unquoted, substitute_eq, String.toList_ofList]

theorem word_plain {c : Char} (word : Token.isWordChar c = true) : c ≠ '"' ∧ c ≠ '\n' ∧ c ≠ '\\' := by
  refine ⟨?_, ?_, ?_⟩ <;> rintro rfl <;> revert word <;> decide

theorem spells_name (words : env.Words) (bound : env.lookup name = some v) :
    Spells name.toList (name.toList.flatMap utf8Bytes) :=
  spells_plain fun c member => word_plain (words name v bound c member)

/-- The literal spells, with the values in it, a text that comes to the same as the one it spells
without them. -/
theorem spells_substituteChars (words : env.Words)
    (neutral : ∀ name v, env.lookup name = some v → Neutral env v)
    (spells : Spells body (cs.flatMap utf8Bytes)) :
    ∃ ds, Spells (substituteChars env body) (ds.flatMap utf8Bytes) ∧
      ∀ front, Clear env (front ++ cs) →
        substituteChars env (front ++ ds) = substituteChars env (front ++ cs) := by
  induction body using bracketsInduction generalizing cs with
  | plain body plain =>
    have alone : substituteChars env body = body := substituteChars_of_plain plain
    exact ⟨cs, alone.symm ▸ spells, fun _ _ => rfl⟩
  | opened body ds plain unclosed =>
    refine ⟨cs, ?_, fun _ _ => rfl⟩
    rwa [substituteChars_plain plain, substituteChars_opened unclosed]
  | pair body ds rest plain unclosed ih =>
    obtain ⟨c₁, _, rfl, first, behind⟩ := spells.cut_text (.inl rfl)
    obtain ⟨c₂, c₃, rfl, second, last⟩ := behind.cut_text (.inr rfl)
    obtain ⟨d₃, third, same⟩ := ih last
    rw [substituteChars_plain plain, substituteChars_pair unclosed]
    cases found : env.lookup (String.ofList ds) with
    | none =>
      refine ⟨c₁ ++ '[' :: (c₂ ++ ']' :: d₃), ?_, fun front clear => ?_⟩
      · have third := Spells.bracket (.inr rfl) third
        simpa using first.append (.bracket (.inl rfl) (second.append third))
      · have later := same (front ++ (c₁ ++ '[' :: (c₂ ++ [']'])))
        simp only [List.append_assoc, List.cons_append, List.nil_append] at later
        exact later clear
    | some v =>
      have named : ds = c₂ := by
        have own := spells_name words found
        rw [String.toList_ofList] at own
        rw [← decodeUtf8_flatMap ds, own.unique second, decodeUtf8_flatMap]
      obtain ⟨dv, value, closed, back⟩ := neutral _ v found
      refine ⟨c₁ ++ (dv ++ d₃), ?_, fun front clear => ?_⟩
      · simpa using first.append (value.append third)
      · have whole : front ++ (c₁ ++ '[' :: (c₂ ++ ']' :: c₃)) =
            front ++ c₁ ++ placeholder (String.ofList ds) ++ c₃ := by simp [placeholder, named]
        rw [whole] at clear ⊢
        have rest := same [] clear.behind
        rw [List.nil_append, List.nil_append] at rest
        rw [substituteChars_placeholder words found, clear _ _ v _ found rfl, ← List.append_assoc,
          substituteChars_append (clear _ _ v _ found rfl), substituteChars_append closed, back, rest]
        simp

theorem generated_filled (words : env.Words)
    (neutral : ∀ name v, env.lookup name = some v → Neutral env v)
    (spells : Spells body (cs.flatMap utf8Bytes)) (clear : Clear env cs) :
    generated body env = String.ofList (fillChars env cs) := by
  obtain ⟨ds, with_, same⟩ := spells_substituteChars words neutral spells
  rw [generated_of_spells words with_, ← substituteChars_clear words clear]
  exact congrArg String.ofList (same [] clear)

/-! ### Values that are put in their places -/

theorem substituteChars_name (words : env.Words) (bound : env.lookup name = some v) :
    substituteChars env (placeholder name) = v.toList := by
  have alone : substituteChars env ([] ++ placeholder name ++ []) = _ :=
    substituteChars_placeholder words bound
  simpa [leavesOpen, substituteChars] using alone

theorem count_placeholder (words : env.Words) (bound : env.lookup name = some v) :
    (placeholder name).count '[' = 1 := by
  simp [placeholder, List.count_eq_zero.mpr (words.noOpening bound)]

theorem spells_placeholder (words : env.Words) (bound : env.lookup name = some v) :
    Spells (placeholder name) ((placeholder name).flatMap utf8Bytes) := by
  simpa [placeholder] using Spells.bracket (.inl rfl)
    ((spells_name words bound).append (.bracket (.inr rfl) .nil))

theorem spells_of_newline {bs : List Nat} (spells : Spells ('\\' :: 'n' :: cs) bs) :
    ∃ bs', bs = utf8Bytes '\n' ++ bs' ∧ Spells cs bs' := by
  generalize whole : '\\' :: 'n' :: cs = ds at spells
  cases spells with
  | nil => cases whole
  | plain quote line backslash rest => exact absurd (List.cons.inj whole).1.symm backslash
  | @escape e cs' es bs escape rest =>
    have read := escape.read cs'
    rw [← (List.cons.inj whole).2] at read
    cases read
    exact ⟨bs, rfl, rest⟩

theorem generated_of_none (words : env.Words) (same : substituteChars env body = cs)
    (improper : literalBytes? cs.length cs = none) :
    generated body env = String.ofList (substituteChars env cs) := by
  rw [generated, bindArg_literal words, same, unquoted_literal, improper]
  dsimp only
  rw [substitute_eq, String.toList_ofList]

/-- The templates of clear texts are filled. -/
def Filled (env : Env) : Prop :=
  ∀ body cs : List Char, Spells body (cs.flatMap utf8Bytes) → Clear env cs →
    generated body env = String.ofList (fillChars env cs)

theorem Filled.spells (filled : Filled env) (words : env.Words) (bound : env.lookup name = some v)
    (texts : ∀ bs, Spells v.toList bs → ∃ dv : List Char, bs = dv.flatMap utf8Bytes) :
    ∃ dv, Spells v.toList (dv.flatMap utf8Bytes) ∧ substituteChars env dv = v.toList := by
  have value := substituteChars_name words bound
  have line : Spells ('\\' :: 'n' :: placeholder name) (('\n' :: placeholder name).flatMap utf8Bytes) :=
    .escape (.letter rfl) (spells_placeholder words bound)
  have clear : Clear env ('\n' :: placeholder name) :=
    clear_of_count (by simp [count_placeholder words bound])
  have result := filled _ _ line clear
  rw [← substituteChars_clear words clear, substituteChars_other (by decide), value] at result
  have body : substituteChars env ('\\' :: 'n' :: placeholder name) = '\\' :: 'n' :: v.toList := by
    rw [substituteChars_other (by decide), substituteChars_other (by decide), value]
  cases found : literalBytes? ('\\' :: 'n' :: v.toList).length ('\\' :: 'n' :: v.toList) with
  | none =>
    rw [generated_of_none words body found, substituteChars_other (by decide), String.ofList_inj] at result
    exact absurd (List.cons.inj result).1 (by decide)
  | some bs =>
    obtain ⟨bs', rfl, spells⟩ := spells_of_newline (spells_of_literalBytes? found)
    obtain ⟨dv, rfl⟩ := texts bs' spells
    have whole : Spells (substituteChars env ('\\' :: 'n' :: placeholder name))
        (('\n' :: dv).flatMap utf8Bytes) := body ▸ .escape (.letter rfl) spells
    rw [generated_of_spells words whole, substituteChars_other (by decide), String.ofList_inj] at result
    exact ⟨dv, spells, (List.cons.inj result).2⟩

theorem Filled.neutral (filled : Filled env) (words : env.Words) (bound : env.lookup name = some v)
    (texts : ∀ bs, Spells v.toList bs → ∃ dv : List Char, bs = dv.flatMap utf8Bytes) : Neutral env v := by
  obtain ⟨dv, spells, back⟩ := filled.spells words bound texts
  refine ⟨dv, spells, Bool.eq_false_iff.mpr fun opened => ?_, back⟩
  have own := spells_placeholder words bound
  have ending : Spells ('\\' :: (['x', '5', 'b'] ++ (name.toList ++ [']'])))
      ((placeholder name).flatMap utf8Bytes) := by
    have bracket : Escape ['x', '5', 'b'] (utf8Bytes '[') := .byte rfl
    simpa [placeholder] using Spells.escape bracket
      ((spells_name words bound).append (.bracket (.inr rfl) .nil))
  have clear : Clear env (placeholder name ++ placeholder name) :=
    have alone : Clear env (placeholder name) := clear_of_count (by simp [count_placeholder words bound])
    alone.append words (leavesOpen_placeholder name []) alone
  have result := filled _ _ (List.flatMap_append ▸ own.append ending) clear
  have body : substituteChars env (placeholder name ++ '\\' :: (['x', '5', 'b'] ++ (name.toList ++ [']']))) =
      v.toList ++ '\\' :: (['x', '5', 'b'] ++ (name.toList ++ [']'])) := by
    have plain : '[' ∉ '\\' :: (['x', '5', 'b'] ++ (name.toList ++ [']'])) := by
      simp [words.noOpening bound]
    have cut : substituteChars env ([] ++ placeholder name ++
        '\\' :: (['x', '5', 'b'] ++ (name.toList ++ [']']))) = _ := substituteChars_placeholder words bound
    rw [substituteChars_of_plain plain] at cut
    simpa [leavesOpen, substituteChars] using cut
  have whole : Spells (substituteChars env
      (placeholder name ++ '\\' :: (['x', '5', 'b'] ++ (name.toList ++ [']']))))
      ((dv ++ placeholder name).flatMap utf8Bytes) := by
    rw [body, List.flatMap_append]
    exact spells.append ending
  have ended : substituteChars env (dv ++ placeholder name ++ []) = _ :=
    substituteChars_placeholder words bound
  rw [List.append_nil, opened, back, if_pos rfl, substituteChars, List.append_nil] at ended
  have last : fillChars env (placeholder name ++ []) = _ := fillChars_head words bound
  rw [List.append_nil, fillChars, List.append_nil] at last
  rw [generated_of_spells words whole, ended, fillChars_head words bound, last, String.ofList_inj,
    List.append_cancel_left_eq] at result
  -- so the value is the placeholder itself, which leaves nothing open
  have same : dv = placeholder name := by
    rw [← decodeUtf8_flatMap dv, spells.unique (result ▸ own), decodeUtf8_flatMap, result]
  have closed := leavesOpen_placeholder name []
  rw [List.nil_append, ← same, opened] at closed
  cases closed

theorem neutral_of_plain
    (plain : ∀ c ∈ v.toList, c ≠ '"' ∧ c ≠ '\n' ∧ c ≠ '\\' ∧ c ≠ '[') : Neutral env v := by
  have free : '[' ∉ v.toList := fun member => (plain _ member).2.2.2 rfl
  refine ⟨v.toList, spells_plain fun c member => ?_, Bool.eq_false_iff.mpr fun opened => ?_, ?_⟩
  · obtain ⟨quote, line, backslash, -⟩ := plain c member
    exact ⟨quote, line, backslash⟩
  · obtain ⟨front, behind, same, -, -⟩ := leavesOpen_cut opened
    exact free (same ▸ by simp)
  · exact substituteChars_of_plain free

/-! ### Directives with a template -/

/-- The texts that a directive adds to the effects of an attribute. -/
def Directive.texts (t : Directive) (fx : Effects) : List String :=
  match t with
  | .append => fx.append
  | .prepend => fx.prepend
  | _ => []

theorem texts_foldl (t : Directive) (fx : Effects) (fxs : List Effects) :
    t.texts (fxs.foldl Effects.union fx) = t.texts fx ++ fxs.flatMap t.texts := by
  induction fxs generalizing fx with
  | nil => simp
  | cons f fxs ih =>
    have joined : t.texts (fx.union f) = t.texts fx ++ t.texts f := by cases t <;> rfl
    rw [List.foldl_cons, ih, joined, List.flatMap_cons, List.append_assoc]

theorem ofName?_name (t : Directive) : Directive.ofName? t.name = some t := by cases t <;> decide

theorem expand_template (defs : List Definition) (n : Nat) (env : Env) (stack : List String)
    (span : Span) (body : List Char) {t : Directive} (text : t = .append ∨ t = .prepend) :
    ∃ fx, expand defs n env stack ⟨span, t.name, [literal body]⟩ = .ok fx ∧
      t.texts fx = [generated body env] := by
  refine ⟨t.effects [bindArg (literal body) env] env, ?_, ?_⟩
  · rw [expand, ofName?_name]
    rcases text with rfl | rfl <;> rfl
  · rcases text with rfl | rfl <;> rfl

theorem bindArg_nil (a : String) : bindArg a [] = trim a := by
  unfold bindArg
  simp [substitute]

theorem words_binding {params args : List String}
    (words : ∀ p ∈ params, ∀ c ∈ p.toList, Token.isWordChar c = true) :
    (binding params args).Words := by
  intro name v bound
  have member := List.mem_reverse.mp (mem_of_lookup bound)
  exact words name (List.of_mem_zip member).1

/-- A directive of an attribute generates a text from its literal for every use of the attribute, in
the order of the directives. If all arguments are neutral, the text is the one that the literal spells
with every placeholder replaced by its argument, whatever clear text it is. No other arguments that spell
texts have this property. -/
theorem templates_filled_iff {defs : List Definition} {d : Definition} {u : AttributeUse}
    (found : definition? defs u.name = some d)
    (words : ∀ p ∈ d.params, ∀ c ∈ p.toList, Token.isWordChar c = true) :
    let env := binding d.params (u.args.map trim)
    (∀ fx, expand defs defs.length [] [] u = .ok fx → ∀ before after span t body,
      t = Directive.append ∨ t = Directive.prepend →
      d.directives = before ++ ⟨span, t.name, [literal body]⟩ :: after →
      ∃ front behind,
        before.mapM (expand defs (defs.length - 1) env [u.name]) = .ok front ∧
        after.mapM (expand defs (defs.length - 1) env [u.name]) = .ok behind ∧
        t.texts fx = front.flatMap t.texts ++ generated body env :: behind.flatMap t.texts) ∧
      ((∀ name v, env.lookup name = some v → Neutral env v) → Filled env) ∧
      (Filled env → ∀ name v, env.lookup name = some v →
        (∀ bs, Spells v.toList bs → ∃ dv : List Char, bs = dv.flatMap utf8Bytes) → Neutral env v) := by
  intro env
  have named : env.Words := words_binding words
  refine ⟨fun fx run before after span t body text cut => ?_, fun neutral body cs spells clear =>
    generated_filled named neutral spells clear, fun filled name v bound texts =>
    filled.neutral named bound texts⟩
  have bind : u.args.map (bindArg · []) = u.args.map trim := List.map_congr_left fun a _ => bindArg_nil a
  rcases expand_cases defs defs.length [] [] u with ⟨-, e, failed, -⟩ | ⟨-, d', builtin, -⟩ |
    ⟨-, d', found', ⟨-, failed⟩ | ⟨-, m, size, step⟩⟩
  · cases failed.symm.trans run
  · rw [(definition?_some found).1] at builtin
    cases builtin
  · cases failed.symm.trans run
  · obtain rfl := Option.some.inj (found.symm.trans found')
    obtain rfl : m = defs.length - 1 := by omega
    rw [step, bind, cut] at run
    obtain ⟨fxs, expanded, same⟩ := except_bind_ok run
    obtain rfl := Except.ok.inj same
    rw [List.mapM_append] at expanded
    obtain ⟨front, first, expanded⟩ := except_bind_ok expanded
    obtain ⟨rest, expanded, same⟩ := except_bind_ok expanded
    rw [← Except.ok.inj same]
    rw [List.mapM_cons] at expanded
    obtain ⟨own, here, expanded⟩ := except_bind_ok expanded
    obtain ⟨behind, last, same⟩ := except_bind_ok expanded
    rw [← Except.ok.inj same]
    obtain ⟨own', here', texts⟩ := expand_template defs (defs.length - 1) env [u.name] span body text
    obtain rfl := Except.ok.inj (here.symm.trans here')
    refine ⟨front, behind, first, last, ?_⟩
    have none : t.texts {} = [] := by rcases text with rfl | rfl <;> rfl
    rw [texts_foldl, none, List.flatMap_append, List.flatMap_cons, texts]
    rfl

/-- An attribute with two parameters and a template for both. -/
def propertyDef : Definition :=
  ⟨"Property", ["t", "n"], [⟨{}, "Isolated", []⟩, ⟨{}, "DeclareAppend", ["\"READ([t]) get_[n]\""]⟩]⟩

theorem templates_filled_iff_of_property :
    let u : AttributeUse := ⟨{}, "Property", [" int", "count "]⟩
    definition? [propertyDef] u.name = some propertyDef ∧
      (∀ p ∈ propertyDef.params, ∀ c ∈ p.toList, Token.isWordChar c = true) ∧
      ∃ fx front behind, expand [propertyDef] 1 [] [] u = .ok fx ∧
        fx.append = front ++ "READ(int) get_count" :: behind := by
  intro u
  have found : definition? [propertyDef] u.name = some propertyDef := rfl
  have words : ∀ p ∈ propertyDef.params, ∀ c ∈ p.toList, Token.isWordChar c = true :=
    List.forall_mem_cons.mpr ⟨List.all_eq_true.mp rfl,
      List.forall_mem_singleton.mpr (List.all_eq_true.mp rfl)⟩
  obtain ⟨directives, filled, -⟩ := templates_filled_iff found words
  have neutral : ∀ name v, (binding propertyDef.params (u.args.map trim)).lookup name = some v →
      Neutral (binding propertyDef.params (u.args.map trim)) v := by
    intro name v bound
    have member : (name, v) ∈ [("n", "count"), ("t", "int")] := mem_of_lookup bound
    simp only [List.mem_cons, Prod.mk.injEq, List.not_mem_nil, or_false] at member
    rcases member with ⟨-, rfl⟩ | ⟨-, rfl⟩
    · exact neutral_of_plain (by simp)
    · exact neutral_of_plain (by simp)
  have ends : (expand [propertyDef] 1 [] [] u).toOption.isSome = true := by decide +kernel
  obtain ⟨fx, run⟩ := Option.isSome_iff_exists.mp ends
  have run := toOption_eq_some run
  obtain ⟨front, behind, -, -, texts⟩ := directives fx run [⟨{}, "Isolated", []⟩] [] {} .append
    "READ([t]) get_[n]".toList (.inl rfl) rfl
  have clear : Clear (binding propertyDef.params (u.args.map trim))
      ("READ([t])".toList ++ " get_[n]".toList) :=
    (clear_of_count (by decide)).append (words_binding words) (by decide) (clear_of_count (by decide))
  have text := filled neutral _ _ (spells_plain (by simp)) clear
  refine ⟨found, words, fx, _, _, run, texts.trans (congrArg (_ ++ · :: _) (text.trans ?_))⟩
  decide +kernel

/-- The first argument is the placeholder of the second one, which is put there. The quotes of an
argument keep the escape of the template from being read. -/
theorem arguments_change_template :
    let defs : List Definition := [⟨"P", ["a", "b"],
      [⟨{}, "DeclareAppend", ["\"[a]\""]⟩, ⟨{}, "DeclareAppend", ["\"[b]\\t;\""]⟩]⟩]
    let texts (args : List String) := (expand defs 1 [] [] ⟨{}, "P", args⟩).toOption.map (·.append)
    texts ["[b]", "int"] = some ["int", "int\t;"] ∧
      texts ["x", "\"y\""] = some ["x", "\"y\"\\t;"] := by
  constructor
  · decide +kernel
  · decide +kernel

end Attribute

end TastyLang
