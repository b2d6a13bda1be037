import JarRemap.Proofs.BuiltTransforms
import JarRemap.Proofs.LineWords
import JarRemap.Proofs.PlainText

/-!
# What an access widener is compiled to

A line of an access widener is refused for the first of three reasons that applies: what it is for, how many words
it has, and how it opens the symbol. A file is refused for its first line that is refused, whatever follows.
Otherwise the transform of each symbol is told by the lines that name it.
-/
namespace JarRemap

open List Widening Text SymbolKind AccessTransform

namespace SymbolKind

def wordCount : SymbolKind → Nat
  | .isClass => 3
  | .isMethod => 5
  | .isField => 5

def accesses : SymbolKind → List String
  | .isClass => ["accessible", "extendable"]
  | .isMethod => ["accessible", "extendable"]
  | .isField => ["accessible", "mutable"]

end SymbolKind

namespace Widening

variable {words rest : List String} {widening : Widening} {fault : WidenerFault} {kind : SymbolKind}
  {access : String}

/-- Why the words of a line are refused: what the line is for comes first, then the number of its words, then the
way to open the symbol. -/
inductive Refuses : List String → WidenerFault → Prop
  | entryType {words : List String} (unknown : ∀ kind : SymbolKind, words[1]? ≠ some kind.keyword) :
    Refuses words (.unknownEntryType ((words[1]?).getD ""))
  | count {words : List String} {kind : SymbolKind} (known : words[1]? = some kind.keyword)
    (wrong : words.length ≠ kind.wordCount) : Refuses words (.fieldCount kind kind.wordCount words.length)
  | access {access : String} {rest : List String} {kind : SymbolKind}
    (counted : (access :: kind.keyword :: rest).length = kind.wordCount) (unknown : access ∉ kind.accesses) :
    Refuses (access :: kind.keyword :: rest) (.unknownAccess kind access)

def accessWord : Widening → String
  | .ofClass opening _ => opening.keyword
  | .ofMethod opening _ _ _ => opening.keyword
  | .ofField opening _ _ _ => opening.keyword

section transforms

attribute [local simp] transform accessWord Opening.transform Opening.keyword FieldOpening.transform
  FieldOpening.keyword publish publishOpen unlock

theorem transform_public_iff (widening : Widening) : widening.transform.visibility = some .isPublic ↔
      widening.accessWord = "accessible" ∨ widening.accessWord = "extendable" := by
  rcases widening with ⟨_ | _, _⟩ | ⟨_ | _, _, _, _⟩ | ⟨_ | _, _, _, _⟩ <;> simp

theorem transform_remove_iff (widening : Widening) : widening.transform.finalChange = .remove ↔
      widening.accessWord = "extendable" ∨ widening.accessWord = "mutable" := by
  rcases widening with ⟨_ | _, _⟩ | ⟨_ | _, _, _, _⟩ | ⟨_ | _, _, _, _⟩ <;> simp

theorem transform_cases (widening : Widening) :
    widening.transform = .publish ∨ widening.transform = .publishOpen ∨ widening.transform = .unlock := by
  rcases widening with ⟨_ | _, _⟩ | ⟨_ | _, _, _, _⟩ | ⟨_ | _, _, _, _⟩ <;> simp

end transforms

theorem ofWords_words (widening : Widening) : ofWords widening.words = .ok widening := by
  rcases widening with ⟨_ | _, _⟩ | ⟨_ | _, _, _, _⟩ | ⟨_ | _, _, _, _⟩ <;> rfl

theorem words_injective : Function.Injective Widening.words := by
  intro first second same
  have read := congrArg ofWords same
  rw [ofWords_words, ofWords_words] at read
  exact Except.ok.inj read

theorem words_ne_nil (widening : Widening) : widening.words ≠ [] := by
  cases widening <;> exact cons_ne_nil _ _

theorem ofWords_of_wrong_count (wrong : (access :: kind.keyword :: rest).length ≠ kind.wordCount) :
    ofWords (access :: kind.keyword :: rest) =
      .error (.fieldCount kind kind.wordCount (access :: kind.keyword :: rest).length) := by
  cases kind with
  | isClass =>
    rcases rest with _ | ⟨_, _ | ⟨_, _⟩⟩
    case cons.nil => exact absurd rfl wrong
    all_goals rfl
  | isMethod | isField =>
    rcases rest with _ | ⟨_, _ | ⟨_, _ | ⟨_, _ | ⟨_, _⟩⟩⟩⟩
    case cons.cons.cons.nil => exact absurd rfl wrong
    all_goals rfl

theorem ofWords_of_unknown_access (counted : (access :: kind.keyword :: rest).length = kind.wordCount)
    (unknown : access ∉ kind.accesses) :
    ofWords (access :: kind.keyword :: rest) = .error (.unknownAccess kind access) := by
  cases kind <;> simp only [accesses, mem_cons, not_mem_nil, or_false, not_or] at unknown
  case isClass =>
    obtain ⟨name, rfl⟩ := length_eq_one_iff.mp (Nat.succ.inj (Nat.succ.inj counted))
    simp [ofWords, keyword, Opening.ofKeyword, unknown, bind, Except.bind]
  case isMethod =>
    obtain ⟨owner, name, descriptor, rfl⟩ := length_eq_three.mp (Nat.succ.inj (Nat.succ.inj counted))
    simp [ofWords, keyword, Opening.ofKeyword, unknown, bind, Except.bind]
  case isField =>
    obtain ⟨owner, name, descriptor, rfl⟩ := length_eq_three.mp (Nat.succ.inj (Nat.succ.inj counted))
    simp [ofWords, keyword, FieldOpening.ofKeyword, unknown, bind, Except.bind]

/-- Words of the right number that start with a way to open the symbol are those of a widening. -/
theorem exists_words (counted : (access :: kind.keyword :: rest).length = kind.wordCount)
    (known : access ∈ kind.accesses) : ∃ widening : Widening, access :: kind.keyword :: rest = widening.words := by
  cases kind with
  | isClass =>
    obtain ⟨name, rfl⟩ := length_eq_one_iff.mp (Nat.succ.inj (Nat.succ.inj counted))
    fin_cases known
    · exact ⟨.ofClass .accessible name, rfl⟩
    · exact ⟨.ofClass .extendable name, rfl⟩
  | isMethod =>
    obtain ⟨owner, name, descriptor, rfl⟩ := length_eq_three.mp (Nat.succ.inj (Nat.succ.inj counted))
    fin_cases known
    · exact ⟨.ofMethod .accessible owner name descriptor, rfl⟩
    · exact ⟨.ofMethod .extendable owner name descriptor, rfl⟩
  | isField =>
    obtain ⟨owner, name, descriptor, rfl⟩ := length_eq_three.mp (Nat.succ.inj (Nat.succ.inj counted))
    fin_cases known
    · exact ⟨.ofField .accessible owner name descriptor, rfl⟩
    · exact ⟨.ofField .mutable owner name descriptor, rfl⟩

theorem Refuses.ofWords_eq (refused : Refuses words fault) : ofWords words = .error fault := by
  cases refused with
  | entryType unknown =>
    have other (kind : SymbolKind) : (words[1]?).getD "" ≠ kind.keyword := by
      cases found : words[1]? with
      | none => cases kind <;> decide
      | some entryType => simpa [found] using unknown kind
    rw [ofWords.eq_def]
    exact (if_neg (other .isClass)).trans ((if_neg (other .isMethod)).trans (if_neg (other .isField)))
  | @count _ kind known wrong =>
    obtain _ | ⟨access, _ | ⟨entryType, rest⟩⟩ := words
    · cases known
    · cases known
    · obtain rfl : entryType = kind.keyword := Option.some.inj known
      exact ofWords_of_wrong_count wrong
  | access counted unknown => exact ofWords_of_unknown_access counted unknown

theorem exists_refuses (words : List String) :
    (∃ widening : Widening, words = widening.words) ∨ ∃ fault, Refuses words fault := by
  by_cases known : ∃ kind : SymbolKind, words[1]? = some kind.keyword
  · obtain ⟨kind, named⟩ := known
    obtain _ | ⟨access, _ | ⟨entryType, rest⟩⟩ := words
    · cases named
    · cases named
    obtain rfl : entryType = kind.keyword := Option.some.inj named
    by_cases counted : (access :: kind.keyword :: rest).length = kind.wordCount
    · by_cases opens : access ∈ kind.accesses
      · exact .inl (exists_words counted opens)
      · exact .inr ⟨_, .access counted opens⟩
    · exact .inr ⟨_, .count rfl counted⟩
  · exact .inr ⟨_, .entryType fun kind named => known ⟨kind, named⟩⟩

section lines

variable {line : String}

theorem ofText_of_blank (blank : States line []) : ofText line = .ok none := by
  rw [ofText, states_iff.mp blank]

theorem ofText_of_nonblank (stated : States line words) (nonempty : words ≠ []) :
    ofText line = some <$> ofWords words := by
  obtain ⟨first, others, rfl⟩ := exists_cons_of_ne_nil nonempty
  rw [ofText, states_iff.mp stated]

theorem ofText_of_widening (stated : States line widening.words) : ofText line = .ok (some widening) := by
  rw [ofText_of_nonblank stated widening.words_ne_nil, ofWords_words]
  rfl

theorem ofText_of_refused (stated : States line words) (nonempty : words ≠ []) (refused : Refuses words fault) :
    ofText line = .error fault := by
  rw [ofText_of_nonblank stated nonempty, refused.ofWords_eq]
  rfl

end lines

end Widening

namespace WidenerFile

section headers

variable {line space : String} {words : List String} {fault : WidenerFault}

inductive RefusesHeader : List String → WidenerFault → Prop
  | count {words : List String} (wrong : words.length ≠ 3) : RefusesHeader words (.headerFieldCount words)
  | marker {marker version space : String} (other : marker ≠ "accessWidener") :
    RefusesHeader [marker, version, space] (.notAWidener marker)
  | version {version space : String} (other : version ≠ "v1") :
    RefusesHeader ["accessWidener", version, space] (.unsupportedVersion version)

theorem header_of_words (falls : FallsInto line.toList ["accessWidener", "v1", space]) : header line = .ok space := by
  rw [header, fallsInto_iff.mp falls]
  rfl

theorem RefusesHeader.header_eq (refused : RefusesHeader words fault) (falls : FallsInto line.toList words) :
    header line = .error fault := by
  rw [header, fallsInto_iff.mp falls]
  cases refused with
  | count wrong =>
    rcases words with _ | ⟨_, _ | ⟨_, _ | ⟨_, _ | ⟨_, _⟩⟩⟩⟩
    case cons.cons.cons.nil => exact absurd rfl wrong
    all_goals rfl
  | marker other => exact if_pos other
  | version other => simp [other]

theorem exists_refusesHeader (words : List String) :
    (∃ space, words = ["accessWidener", "v1", space]) ∨ ∃ fault, RefusesHeader words fault := by
  by_cases counted : words.length = 3
  · obtain ⟨marker, version, space, rfl⟩ := length_eq_three.mp counted
    by_cases marked : marker = "accessWidener"
    · subst marked
      by_cases supported : version = "v1"
      · exact .inl ⟨space, by rw [supported]⟩
      · exact .inr ⟨_, .version supported⟩
    · exact .inr ⟨_, .marker marked⟩
  · exact .inr ⟨_, .count counted⟩

end headers

section files

variable {text line space : String} {lines : List String} {failure : Failure} {widening : Widening}
  {fault : WidenerFault}

def Accepts (line : String) : Prop := States line [] ∨ ∃ widening : Widening, States line widening.words

/-- The first line is a header, and all others are blank or state a widening. -/
inductive Accepted : List String → Prop
  | file {first space : String} {later : List String}
    (header : FallsInto first.toList ["accessWidener", "v1", space]) (accepts : ∀ line ∈ later, Accepts line) :
    Accepted (first :: later)

/-- The failure that a file with these lines is refused with. It is that of the first line that is refused; there
is none to blame if there are no lines at all. -/
inductive Refused : List String → Failure → Prop
  | missing : Refused [] (.of (.widener .missingHeader))
  | header {first : String} {later words : List String} {fault : WidenerFault}
    (falls : FallsInto first.toList words) (refuses : RefusesHeader words fault) :
    Refused (first :: later) ⟨[.inLine 1], .widener fault⟩
  | line {front later words : List String} {line : String} {fault : WidenerFault} (accepted : Accepted front)
    (stated : States line words) (nonempty : words ≠ []) (refuses : Refuses words fault) :
    Refused (front ++ line :: later) ⟨[.inLine (front.length + 1)], .widener fault⟩

theorem exists_refuses_of_not_accepts (other : ¬ Accepts line) :
    ∃ words fault, States line words ∧ words ≠ [] ∧ Refuses words fault := by
  obtain ⟨words, stated⟩ : ∃ words, States line words := ⟨_, states_iff.mpr rfl⟩
  have nonempty : words ≠ [] := by
    rintro rfl
    exact other (.inl stated)
  rcases exists_refuses words with ⟨widening, rfl⟩ | ⟨fault, refuses⟩
  · exact absurd (.inr ⟨widening, stated⟩) other
  · exact ⟨words, fault, stated, nonempty, refuses⟩

theorem accepted_or_refused (lines : List String) : Accepted lines ∨ ∃ failure, Refused lines failure := by
  cases lines with
  | nil => exact .inr ⟨_, .missing⟩
  | cons first later =>
    obtain ⟨words, falls⟩ : ∃ words, FallsInto first.toList words := ⟨_, fallsInto_iff.mpr rfl⟩
    rcases exists_refusesHeader words with ⟨space, rfl⟩ | ⟨fault, refuses⟩
    · by_cases accepts : ∀ line ∈ later, Accepts line
      · exact .inl (.file falls accepts)
      · -- the first line that is not accepted is the one to blame
        classical
        obtain ⟨line, found⟩ : ∃ line, later.find? (fun line => ¬ Accepts line) = some line := by
          rw [← Option.isSome_iff_exists, List.find?_isSome]
          simpa using accepts
        obtain ⟨other, front, back, rfl, before⟩ := List.find?_eq_some_iff_append.mp found
        obtain ⟨words, fault, stated, nonempty, refuses⟩ := exists_refuses_of_not_accepts (of_decide_eq_true other)
        have accepted : Accepted (first :: front) := .file falls (by simpa using before)
        exact .inr ⟨_, .line accepted stated nonempty refuses⟩
    · exact .inr ⟨_, .header falls refuses⟩

theorem Refused.of_take {number : Nat} {others : List String}
    (refused : Refused lines ⟨[.inLine number], .widener fault⟩) (same : others.take number = lines.take number) :
    Refused others ⟨[.inLine number], .widener fault⟩ := by
  rw [← take_append_drop number others, same]
  cases refused with
  | header falls refuses => exact .header falls refuses
  | @line front later _ line _ accepted stated nonempty refuses =>
    rw [take_length_add_append, take_succ_cons, take_zero, append_assoc]
    exact .line accepted stated nonempty refuses

theorem lineAt_encodeUtf8 (number : Nat) (line : String) :
    lineAt number (encodeUtf8 line) = Outcome.within (.inLine number) (ofFault (ofText line)) := by
  rw [lineAt, ofStream_encodeUtf8]
  rfl

theorem exists_widenFrom (accepts : ∀ line ∈ lines, Accepts line) (number : Nat) (rest : List Bytes) :
    ∃ stated : List Widening, widenFrom number (lines.map encodeUtf8 ++ rest) =
        stated.map .ok ++ widenFrom (number + lines.length) rest ∧
      ∀ widening, widening ∈ stated ↔ ∃ line ∈ lines, States line widening.words := by
  induction lines generalizing number with
  | nil => exact ⟨[], rfl, by simp⟩
  | cons line lines ih =>
    obtain ⟨here, later⟩ := forall_mem_cons.mp accepts
    obtain ⟨stated, found, listed⟩ := ih later (number + 1)
    have counted : number + (line :: lines).length = number + 1 + lines.length := by
      rw [length_cons]
      omega
    rw [map_cons, cons_append, widenFrom, lineAt_encodeUtf8, counted]
    rcases here with blank | ⟨widening, states⟩
    · rw [ofText_of_blank blank]
      refine ⟨stated, found, fun widening => ?_⟩
      have silent : ¬ States line widening.words := fun states =>
        widening.words_ne_nil ((states_iff.mp states).symm.trans (states_iff.mp blank))
      simp [listed, silent]
    · rw [ofText_of_widening states]
      refine ⟨widening :: stated, congrArg (Except.ok widening :: ·) found, fun other => ?_⟩
      have only : States line other.words ↔ other = widening := by
        rw [states_iff, states_iff.mp states, eq_comm]
        exact words_injective.eq_iff
      simp [listed, only]

theorem read_of_lines {first : String} {later : List String} (shape : Text.lines text = first :: later) :
    read (encodeUtf8 text) = Outcome.within (.inLine 1) (ofFault (header first)) >>= fun space =>
      pure ⟨space, widenFrom 2 (later.map encodeUtf8)⟩ := by
  rw [read, byteLines_encodeUtf8, shape]
  simp only [map_cons, ofStream_encodeUtf8]
  rfl

theorem widenFrom_of_refused {words : List String} (stated : States line words) (nonempty : words ≠ [])
    (refuses : Refuses words fault) (number : Nat) (rest : List Bytes) :
    widenFrom number (encodeUtf8 line :: rest) = [.error ⟨[.inLine number], .widener fault⟩] := by
  rw [widenFrom, lineAt_encodeUtf8, ofText_of_refused stated nonempty refuses]
  rfl

end files

end WidenerFile

namespace TransformSet

open WidenerFile

variable {text space : String} {failure : Failure} {set : TransformSet}

theorem compileFile_of_ok (space : String) (widenings : List Widening) :
    compileFile ⟨space, widenings.map .ok⟩ = compile widenings := by
  rw [compileFile, compile, forM_eq_forM, forM_map]
  rfl

theorem compileFile_of_error (space : String) (widenings : List Widening) (failure : Failure) :
    compileFile ⟨space, widenings.map .ok ++ [.error failure]⟩ = .error failure := by
  obtain ⟨set, built, -⟩ := build_of_not_conflicting (not_conflicting_widenings widenings)
  rw [← compile_eq, ← compileFile_of_ok space] at built
  have run := EditM.build_eq_ok.mp built
  have whole : ((widenings.map Except.ok ++ [Except.error failure]).forM fun widening : Outcome Widening => do
      widen (← liftM widening) : EditM Unit).result .empty = (.error failure, set) := by
    rw [forM_eq_forM, forM_append]
    exact EditM.result_bind_of_ok run
  exact EditM.build_of_error whole

def OpenedBy (lines : List String) (access : String) (target : AccessTarget) : Prop :=
  ∃ line ∈ lines.tail, ∃ widening : Widening,
    States line widening.words ∧ widening.accessWord = access ∧ widening.target = target

/-- The set makes public and not final what the lines after the header open, and nothing else. -/
structure Opens (set : TransformSet) (lines : List String) : Prop where
  active : ∀ target, (∃ transform, set.find? target = some transform ∧ transform ≠ .idle) ↔
    ∃ access, OpenedBy lines access target
  visible : ∀ target transform, set.find? target = some transform →
    (transform.visibility = some .isPublic ∨ transform.visibility = none) ∧
    (transform.visibility = some .isPublic ↔ OpenedBy lines "accessible" target ∨ OpenedBy lines "extendable" target)
  unlocked : ∀ target transform, set.find? target = some transform →
    (transform.finalChange = .remove ∨ transform.finalChange = .keep) ∧
    (transform.finalChange = .remove ↔ OpenedBy lines "extendable" target ∨ OpenedBy lines "mutable" target)

section opens

variable {widenings : List Widening} {lines : List String} {target : AccessTarget} {transform : AccessTransform}

theorem exists_asked_iff {Holds : AccessTransform → Prop} {first second : String}
    (listed : ∀ widening, widening ∈ widenings ↔ ∃ line ∈ lines.tail, States line widening.words)
    (told : ∀ widening : Widening,
      Holds widening.transform ↔ widening.accessWord = first ∨ widening.accessWord = second) :
    (∃ part, ⟨target, part⟩ ∈ widenings.map lineOf ∧ Holds part) ↔
      OpenedBy lines first target ∨ OpenedBy lines second target := by
  simp only [mem_map, listed, lineOf, TransformerLine.mk.injEq]
  constructor
  · rintro ⟨_, ⟨widening, ⟨line, later, states⟩, targets, rfl⟩, holds⟩
    exact ((told widening).mp holds).imp (fun word => ⟨line, later, widening, states, word, targets⟩)
      fun word => ⟨line, later, widening, states, word, targets⟩
  · rintro (⟨line, later, widening, states, word, targets⟩ | ⟨line, later, widening, states, word, targets⟩)
    · exact ⟨_, ⟨widening, ⟨line, later, states⟩, targets, rfl⟩, (told widening).mpr (.inl word)⟩
    · exact ⟨_, ⟨widening, ⟨line, later, states⟩, targets, rfl⟩, (told widening).mpr (.inr word)⟩

theorem asked_cases {part : AccessTransform} (asked : ⟨target, part⟩ ∈ widenings.map lineOf) :
    part = .publish ∨ part = .publishOpen ∨ part = .unlock := by
  obtain ⟨widening, -, rfl, rfl⟩ : ∃ widening ∈ widenings, widening.target = target ∧ widening.transform = part := by
    simpa [lineOf] using asked
  exact widening.transform_cases

section combined

variable (combined : transform.Combines fun part => ⟨target, part⟩ ∈ widenings.map lineOf)
  (listed : ∀ widening, widening ∈ widenings ↔ ∃ line ∈ lines.tail, States line widening.words)
include combined listed

theorem visible_of_combines : (transform.visibility = some .isPublic ∨ transform.visibility = none) ∧
    (transform.visibility = some .isPublic ↔
      OpenedBy lines "accessible" target ∨ OpenedBy lines "extendable" target) := by
  have known : transform.visibility = some .isPublic ∨ transform.visibility = none := by
    rcases combined.reached with absent | ⟨part, asked, reached⟩
    · exact .inr absent
    · rw [← reached]
      rcases asked_cases asked with rfl | rfl | rfl <;> decide
  have opened : (∃ part, ⟨target, part⟩ ∈ widenings.map lineOf ∧ part.visibility = some .isPublic) ↔ _ :=
    exists_asked_iff listed transform_public_iff
  rw [← opened]
  refine ⟨known, fun visible => ?_, ?_⟩
  · rcases combined.reached with absent | ⟨part, asked, reached⟩
    · rw [absent] at visible
      cases visible
    · exact ⟨part, asked, reached.trans visible⟩
  · rintro ⟨part, asked, visible⟩
    refine known.resolve_right fun absent => ?_
    -- nothing at all is demanded of what has no visibility
    have demanded := combined.widest part asked
    rw [visible, absent] at demanded
    exact absurd demanded (by decide)

theorem unlocked_of_combines : (transform.finalChange = .remove ∨ transform.finalChange = .keep) ∧
    (transform.finalChange = .remove ↔ OpenedBy lines "extendable" target ∨ OpenedBy lines "mutable" target) := by
  refine ⟨?_, (combined.changes .remove (by decide)).trans (exists_asked_iff listed transform_remove_iff)⟩
  cases change : transform.finalChange with
  | keep => exact .inr rfl
  | remove => exact .inl rfl
  | add =>
    obtain ⟨part, asked, adds⟩ := (combined.changes .add (by decide)).mp change
    rcases asked_cases asked with rfl | rfl | rfl <;> cases adds

end combined

theorem Records.opens (recorded : set.Records (widenings.map lineOf))
    (listed : ∀ widening, widening ∈ widenings ↔ ∃ line ∈ lines.tail, States line widening.words) :
    set.Opens lines := by
  have visible {target : AccessTarget} {transform : AccessTransform} (found : set.find? target = some transform) :=
    visible_of_combines (recorded.combined target transform found) listed
  have unlocked {target : AccessTarget} {transform : AccessTransform} (found : set.find? target = some transform) :=
    unlocked_of_combines (recorded.combined target transform found) listed
  refine ⟨fun target => ⟨?_, ?_⟩, fun _ _ found => visible found, fun _ _ found => unlocked found⟩
  · rintro ⟨transform, found, active⟩
    obtain ⟨shown | hidden, opened⟩ := visible found
    · exact (opened.mp shown).elim (⟨_, ·⟩) (⟨_, ·⟩)
    obtain ⟨removed | kept, opened⟩ := unlocked found
    · exact (opened.mp removed).elim (⟨_, ·⟩) (⟨_, ·⟩)
    · refine absurd ?_ active
      cases transform
      cases hidden
      cases kept
      rfl
  · rintro ⟨access, line, later, widening, states, -, rfl⟩
    have asked : lineOf widening ∈ widenings.map lineOf := mem_map_of_mem ((listed widening).mpr ⟨line, later, states⟩)
    obtain ⟨transform, found⟩ := Option.isSome_iff_exists.mp ((recorded.known _).mpr ⟨_, asked, .inl rfl⟩)
    refine ⟨transform, found, ?_⟩
    rintro rfl
    exact widening.transform_ne_idle ((recorded.combined _ _ found).eq_idle asked)

end opens

def compileText (text : String) : Outcome TransformSet := WidenerFile.read (encodeUtf8 text) >>= compileFile

theorem compile_of_accepted (accepted : Accepted (Text.lines text)) :
    ∃ set, compileText text = .ok set ∧ set.Opens (Text.lines text) := by
  generalize shape : Text.lines text = lines at accepted
  obtain ⟨header, accepts⟩ := accepted
  obtain ⟨widenings, found, listed⟩ := exists_widenFrom accepts 2 []
  obtain ⟨set, built, recorded⟩ := build_of_not_conflicting (not_conflicting_widenings widenings)
  refine ⟨set, ?_, recorded.opens listed⟩
  rw [append_nil] at found
  rw [compileText, read_of_lines shape, header_of_words header, found, ← built, ← compile_eq,
    ← compileFile_of_ok _ widenings, widenFrom, append_nil]
  rfl

theorem compile_of_refused (refused : Refused (Text.lines text) failure) : compileText text = .error failure := by
  generalize shape : Text.lines text = lines at refused
  cases refused with
  | missing =>
    rw [compileText, WidenerFile.read, byteLines_encodeUtf8, shape]
    rfl
  | header falls refuses =>
    rw [compileText, read_of_lines shape, refuses.header_eq falls]
    rfl
  | @line front later words line fault accepted stated nonempty refuses =>
    obtain ⟨header, accepts⟩ := accepted
    obtain ⟨widenings, found, -⟩ := exists_widenFrom accepts 2 ((line :: later).map encodeUtf8)
    rw [← map_append, map_cons, widenFrom_of_refused stated nonempty refuses] at found
    rw [cons_append] at shape
    rw [compileText, read_of_lines shape, header_of_words header]
    change compileFile ⟨_, widenFrom 2 _⟩ = _
    rw [found, compileFile_of_error, length_cons, Nat.add_comm 2]

theorem compile_eq_error : compileText text = .error failure ↔ Refused (Text.lines text) failure := by
  refine ⟨fun run => ?_, compile_of_refused⟩
  rcases accepted_or_refused (Text.lines text) with accepted | ⟨other, refused⟩
  · obtain ⟨set, compiled, -⟩ := compile_of_accepted accepted
    rw [compiled] at run
    cases run
  · rw [compile_of_refused refused] at run
    cases run
    exact refused

theorem accepted_of_compile (run : compileText text = .ok set) :
    Accepted (Text.lines text) ∧ set.Opens (Text.lines text) := by
  rcases accepted_or_refused (Text.lines text) with accepted | ⟨failure, refused⟩
  · obtain ⟨other, compiled, opens⟩ := compile_of_accepted accepted
    rw [compiled] at run
    cases run
    exact ⟨accepted, opens⟩
  · rw [compile_of_refused refused] at run
    cases run

/-- A text is compiled unless one of its lines is refused, and the lines up to the first such line decide the
failure. What it is compiled to makes public and not final what the lines open. -/
theorem compile_widener (text : String) :
    ((∃ set, compileText text = .ok set) ↔ Accepted (Text.lines text)) ∧
    (∀ set, compileText text = .ok set → set.Opens (Text.lines text)) ∧
    (∀ failure, compileText text = .error failure ↔ Refused (Text.lines text) failure) ∧
    ∀ number fault other, compileText text = .error ⟨[.inLine number], .widener fault⟩ →
      (Text.lines other).take number = (Text.lines text).take number →
      compileText other = .error ⟨[.inLine number], .widener fault⟩ := by
  refine ⟨⟨?_, ?_⟩, fun set run => (accepted_of_compile run).2, fun failure => compile_eq_error, ?_⟩
  · rintro ⟨set, run⟩
    exact (accepted_of_compile run).1
  · intro accepted
    obtain ⟨set, run, -⟩ := compile_of_accepted accepted
    exact ⟨set, run⟩
  · intro number fault other run same
    exact compile_of_refused ((compile_eq_error.mp run).of_take same)

/-- Two lines for one field, with different descriptors. -/
def openedField : String := "accessWidener v1 named\n# both\naccessible field a/B f I # shown\r\nmutable\tfield a/B f J"

/-- The number of words is wrong in the second line, and its first word is unknown; the third line is refused too. -/
def shortLine : String := "accessWidener v1 named\nclosed class\nmutable class a/B"

theorem compile_widener_openedField_shortLine :
    (∃ set, compileText openedField = .ok set ∧ set.Opens (Text.lines openedField) ∧
      set.find? (.ofField "a/B" "f") = some ⟨some .isPublic, .remove⟩) ∧
    Refused (Text.lines shortLine) ⟨[.inLine 2], .widener (.fieldCount .isClass 3 2)⟩ ∧
    compileText "accessWidener v1 named\nclosed class" =
      .error ⟨[.inLine 2], .widener (.fieldCount .isClass 3 2)⟩ := by
  have found : ((fun set => set.find? (.ofField "a/B" "f")) <$> compileText openedField) =
      .ok (some ⟨some .isPublic, .remove⟩) := by decide +kernel
  have refused : compileText shortLine = .error ⟨[.inLine 2], .widener (.fieldCount .isClass 3 2)⟩ := by rfl
  refine ⟨?_, (compile_widener shortLine).2.2.1 _ |>.mp refused,
    (compile_widener shortLine).2.2.2 _ _ _ refused (by decide +kernel)⟩
  cases run : compileText openedField with
  | error failure =>
    rw [run] at found
    cases found
  | ok set =>
    rw [run] at found
    exact ⟨set, rfl, (compile_widener openedField).2.1 set run, Except.ok.inj found⟩

end TransformSet

end JarRemap
