import TastyLang.Proofs.Evaluation
import TastyLang.Proofs.Resolution.Completeness
import TastyLang.Proofs.Resolution.Meaning
import TastyLang.Proofs.Resolution.Methods

/-!
# Names of extensions

The C++ name of an extension is its owner, with all but letters and digits as underscores, and its
name. Every extension that resolution lists has this name (`File.extensions_named`), so two of them
share it exactly if one name continues where the other owner ends (`File.extension_names_iff`).
-/

namespace TastyLang

namespace Resolution

variable {table : Table} {file : File} {s s' : State}

theorem resolving_extensions (run : s.Run (resolving table file).may s') :
    s'.info.extensions = s.info.extensions := by
  refine run.keeps (P := fun s' => s'.info.extensions = s.info.extensions)
    (fun s₁ c allowed before => ?_) rfl
  cases c with
  | extension e => exact absurd allowed.2 id
  | _ => exact before

theorem File.extensions_named {table : Table} {name src : String} {file : File} {info : Info}
    (read : File.read table name src = .ok file) (resolved : file.resolve table = .ok info) :
    ∀ e ∈ info.extensions, Extension.Named e := by
  obtain ⟨s₁, s₂, s, passed, rfl⟩ := File.read_passed read resolved
  intro e listed
  rw [resolving_extensions passed.third] at listed
  exact (passed.spares.extensions e listed).resolve_left (by simp)

/-! ### Names that meet -/

/-- An owner as the names of its extensions show it. -/
def shownOwner (owner : String) : String :=
  String.ofList (((owner.toList.map fun c => if isNameChar c then c else '_').reverse.dropWhile
    (· = '_')).reverse)

theorem extensionName_eq (owner name : String) :
    extensionName owner name = shownOwner owner ++ "_" ++ name := rfl

theorem append_split {a b x y : List Char} (same : a ++ '_' :: x = b ++ '_' :: y) :
    a = b ∧ x = y ∨ (∃ m, a = b ++ '_' :: m ∧ y = m ++ '_' :: x) ∨
      ∃ m, b = a ++ '_' :: m ∧ x = m ++ '_' :: y := by
  rcases List.append_eq_append_iff.mp same with ⟨between, whole, rest⟩ | ⟨between, whole, rest⟩
  · cases between with
    | nil => exact .inl ⟨by rw [whole, List.append_nil], (List.cons.inj rest).2⟩
    | cons c m =>
      obtain ⟨rfl, name⟩ := List.cons.inj rest
      exact .inr (.inr ⟨m, whole, name⟩)
  · cases between with
    | nil => exact .inl ⟨by rw [whole, List.append_nil], (List.cons.inj rest).2.symm⟩
    | cons c m =>
      obtain ⟨rfl, name⟩ := List.cons.inj rest
      exact .inr (.inl ⟨m, whole, name⟩)

/-- One name starts with what the other first part has more. -/
def Overlap (a x b y : String) : Prop := ∃ m, b = a ++ "_" ++ m ∧ x = m ++ "_" ++ y

theorem overlap_of_toList {a x b y : String} {m : List Char}
    (first : b.toList = a.toList ++ '_' :: m) (name : x.toList = m ++ '_' :: y.toList) :
    Overlap a x b y := by
  refine ⟨String.ofList m, String.toList_inj.mp ?_, String.toList_inj.mp ?_⟩
  · simpa using first
  · simpa using name

theorem joined_eq_iff {a b x y : String} : a ++ "_" ++ x = b ++ "_" ++ y ↔
    a = b ∧ x = y ∨ Overlap a x b y ∨ Overlap b y a x := by
  constructor
  · intro same
    have same : a.toList ++ '_' :: x.toList = b.toList ++ '_' :: y.toList := by
      simpa using congrArg String.toList same
    rcases append_split same with ⟨first, name⟩ | ⟨m, first, name⟩ | ⟨m, first, name⟩
    · exact .inl ⟨String.toList_inj.mp first, String.toList_inj.mp name⟩
    · exact .inr (.inr (overlap_of_toList first name))
    · exact .inr (.inl (overlap_of_toList first name))
  · rintro (⟨rfl, rfl⟩ | ⟨m, rfl, rfl⟩ | ⟨m, rfl, rfl⟩)
    · rfl
    · simp only [String.append_assoc]
    · simp only [String.append_assoc]

end Resolution

open Resolution

/-- Two extensions share their C++ name exactly if their owners show the same and they have the same
name, or if one owner shows the other one, an underscore and a piece that the name of the other's
extension starts with. So extensions of one owner share it exactly if they have one name, as overloads
have, and those whose names have no underscore only if their owners show the same. -/
theorem File.extension_names_iff {table : Table} {name src : String} {file : File} {info : Info}
    (read : File.read table name src = .ok file) (resolved : file.resolve table = .ok info)
    {e e' : Extension} (listed : e ∈ info.extensions) (listed' : e' ∈ info.extensions) :
    (e.cname = e'.cname ↔ shownOwner e.owner = shownOwner e'.owner ∧ e.name = e'.name ∨
      Overlap (shownOwner e.owner) e.name (shownOwner e'.owner) e'.name ∨
      Overlap (shownOwner e'.owner) e'.name (shownOwner e.owner) e.name) ∧
    (shownOwner e.owner = shownOwner e'.owner → e.cname = e'.cname → e.name = e'.name) ∧
    ('_' ∉ e.name.toList → '_' ∉ e'.name.toList → e.cname = e'.cname →
      shownOwner e.owner = shownOwner e'.owner ∧ e.name = e'.name) := by
  have named := File.extensions_named read resolved
  rw [named e listed, named e' listed', extensionName_eq, extensionName_eq]
  have plain {a x b y : String} (overlap : Overlap a x b y) : '_' ∈ x.toList := by
    obtain ⟨m, -, rfl⟩ := overlap
    simp
  refine ⟨joined_eq_iff, fun owner same => ?_, fun here there same => ?_⟩
  · rw [owner] at same
    exact (String.append_right_inj _).mp same
  · rcases joined_eq_iff.mp same with both | overlap | overlap
    · exact both
    · exact absurd (plain overlap) here
    · exact absurd (plain overlap) there

/-- Two bindings whose extensions have different owners and names. -/
def meetingText : String := "abstract A becomes int { fn b_c() { } }\nabstract A_b becomes int { fn c() { } }\n"

def Resolution.Extension.labels (e : Extension) : String × String × String :=
  (e.owner, e.name, e.cname)

theorem meetingText_found : ∃ file info e e',
    File.read Table.default "main.tasty" meetingText = .ok file ∧
      file.resolve Table.default = .ok info ∧ info.extensions = [e, e'] ∧
      Extension.labels e = ("A", "b_c", "A_b_c") ∧ Extension.labels e' = ("A_b", "c", "A_b_c") := by
  have found : (resolved? Table.default "main.tasty" meetingText).any (fun r =>
      r.2.extensions.map Extension.labels ==
        [("A", "b_c", "A_b_c"), ("A_b", "c", "A_b_c")]) = true := by
    rw [resolved?, meetingText, File.read_ofList]
    decide +kernel
  obtain ⟨⟨file, info⟩, steps, listed⟩ := (Option.any_eq_true _ _).mp found
  obtain ⟨read, resolved⟩ := resolved?_some steps
  obtain ⟨e, es, whole, first, rest⟩ := List.map_eq_cons_iff.mp (eq_of_beq listed)
  obtain ⟨e', es', whole', second, rest⟩ := List.map_eq_cons_iff.mp rest
  obtain rfl := List.map_eq_nil_iff.mp rest
  exact ⟨file, info, e, e', read, resolved, whole' ▸ whole, first, second⟩

theorem File.extension_names_iff_of_meeting : ∃ file info e e',
    File.read Table.default "main.tasty" meetingText = .ok file ∧
      file.resolve Table.default = .ok info ∧ e ∈ info.extensions ∧ e' ∈ info.extensions ∧
      Overlap (shownOwner e.owner) e.name (shownOwner e'.owner) e'.name ∧ e.cname = e'.cname := by
  obtain ⟨file, info, e, e', read, resolved, whole, first, second⟩ := meetingText_found
  have listed : e ∈ info.extensions := by simp [whole]
  have listed' : e' ∈ info.extensions := by simp [whole]
  have overlap : Overlap (shownOwner e.owner) e.name (shownOwner e'.owner) e'.name := by
    obtain ⟨owner, name, -⟩ : e.owner = "A" ∧ e.name = "b_c" ∧ _ := by simpa [Extension.labels] using first
    obtain ⟨owner', name', -⟩ : e'.owner = "A_b" ∧ e'.name = "c" ∧ _ := by
      simpa [Extension.labels] using second
    rw [owner, name, owner', name']
    exact ⟨"b", by decide +kernel, by decide +kernel⟩
  refine ⟨file, info, e, e', read, resolved, listed, listed', overlap, ?_⟩
  exact (File.extension_names_iff read resolved listed listed').1.mpr (.inr (.inl overlap))

theorem extension_names_meet : ∃ file info,
    File.read Table.default "main.tasty" meetingText = .ok file ∧
      file.resolve Table.default = .ok info ∧ ∃ e ∈ info.extensions, ∃ e' ∈ info.extensions,
        e.owner ≠ e'.owner ∧ e.name ≠ e'.name ∧ e.cname = e'.cname := by
  obtain ⟨file, info, e, e', read, resolved, whole, first, second⟩ := meetingText_found
  obtain ⟨owner, name, cname⟩ := by simpa [Extension.labels] using first
  obtain ⟨owner', name', cname'⟩ := by simpa [Extension.labels] using second
  refine ⟨file, info, read, resolved, e, by simp [whole], e', by simp [whole], ?_, ?_, ?_⟩
  · rw [owner, owner']
    decide
  · rw [name, name']
    decide
  · rw [cname, cname']

end TastyLang
