import JarRemap.Proofs.Runs

/-!
# Descriptors as rows of pieces

A complete descriptor is the same as a row of pieces in which no lone character is an `L` and no name has
a semicolon. Renaming works on the row piece by piece. So renaming twice is renaming once with the two changes
in a row, as long as the names in between have no semicolon.
-/
namespace JarRemap

open List Outcome Text

namespace Descriptor

variable {row : List Piece}

/-- The piece can be told apart from what stands next to it. -/
def Piece.WellSpelled : Piece → Prop
  | .char c => c ≠ 'L'
  | .name chars => ';' ∉ chars

def spell (row : List Piece) : List Char := (row.map Piece.toChars).flatten

@[simp] theorem spell_nil : spell [] = [] := rfl

@[simp] theorem spell_cons (piece : Piece) (row : List Piece) : spell (piece :: row) = piece.toChars ++ spell row := by
  simp [spell]

/-- Cutting up loses no character, if the last name is complete. A name that is being read counts with
its `L`. -/
theorem spell_piecesFrom (name : Option (List Char)) (text : List Char) (complete : (piecesFrom name text).2 = true) :
    spell (piecesFrom name text).1 = (match name with | none => [] | some chars => 'L' :: chars.reverse) ++ text := by
  induction text generalizing name with
  | nil =>
    cases name with
    | none => rfl
    | some chars => simp [piecesFrom] at complete
  | cons c rest ih =>
    cases name with
    | none =>
      by_cases start : c = 'L'
      · subst start
        simpa [piecesFrom] using ih (some []) (by simpa [piecesFrom] using complete)
      · have later := ih none (by simpa [piecesFrom, start] using complete)
        simpa [piecesFrom, start, Piece.toChars] using later
    | some chars =>
      by_cases finish : c = ';'
      · subst finish
        have later := ih none (by simpa [piecesFrom] using complete)
        simpa [piecesFrom, Piece.toChars] using later
      · have later := ih (some (c :: chars)) (by simpa [piecesFrom, finish] using complete)
        simpa [piecesFrom, finish] using later

theorem wellSpelled_piecesFrom (name : Option (List Char)) (text : List Char)
    (spelled : ∀ chars, name = some chars → ';' ∉ chars) : ∀ piece ∈ (piecesFrom name text).1, piece.WellSpelled := by
  induction text generalizing name with
  | nil => cases name <;> simp [piecesFrom]
  | cons c rest ih =>
    cases name with
    | none =>
      by_cases start : c = 'L'
      · simpa [piecesFrom, start] using ih (some []) (by simp)
      · have later := ih none (by simp)
        simpa [piecesFrom, start, Piece.WellSpelled] using later
    | some chars =>
      have absent : ';' ∉ chars := spelled chars rfl
      by_cases finish : c = ';'
      · have later := ih none (by simp)
        simpa [piecesFrom, finish, Piece.WellSpelled, absent] using later
      · have later := ih (some (c :: chars)) (by simp [absent, Ne.symm finish])
        simpa [piecesFrom, finish] using later

theorem piecesFrom_name (chars : List Char) (spelled : ';' ∉ chars) (before rest : List Char) :
    piecesFrom (some before) (chars ++ ';' :: rest) =
      (.name (before.reverse ++ chars) :: (piecesFrom none rest).1, (piecesFrom none rest).2) := by
  induction chars generalizing before with
  | nil => simp [piecesFrom]
  | cons c chars ih =>
    obtain ⟨other, spelled⟩ : c ≠ ';' ∧ ';' ∉ chars := by
      simpa [eq_comm] using spelled
    simp [piecesFrom, other, ih spelled]

theorem pieces_spell (spelled : ∀ piece ∈ row, piece.WellSpelled) : pieces (spell row) = (row, true) := by
  induction row with
  | nil => rfl
  | cons piece row ih =>
    obtain ⟨first, others⟩ := forall_mem_cons.mp spelled
    have rest : piecesFrom none (spell row) = (row, true) := ih others
    cases piece with
    | char c => simp [pieces, piecesFrom, Piece.toChars, show c ≠ 'L' from first, rest]
    | name chars => simp [pieces, piecesFrom, Piece.toChars, piecesFrom_name chars first, rest]

/-- The pieces of a complete descriptor are the only well-spelled row that is written like it. -/
theorem pieces_eq_iff {text : List Char} :
    pieces text = (row, true) ↔ text = spell row ∧ ∀ piece ∈ row, piece.WellSpelled := by
  constructor
  · intro cut
    have complete : (piecesFrom none text).2 = true := congrArg Prod.snd cut
    have row_eq : (piecesFrom none text).1 = row := congrArg Prod.fst cut
    have written := spell_piecesFrom none text complete
    have spelled := wellSpelled_piecesFrom none text (by simp)
    rw [row_eq] at written spelled
    exact ⟨by simpa using written.symm, spelled⟩
  · rintro ⟨rfl, spelled⟩
    exact pieces_spell spelled

section changedNames

variable {change further : String → String} {descriptor name : String}

/-- Every name in the descriptor has its semicolon. -/
def Complete (descriptor : String) : Prop := (pieces descriptor.toList).2 = true

/-- The descriptor has an `L` with no semicolon after it. -/
def Unterminated (descriptor : String) : Prop :=
  ∃ after, 'L' :: after <:+ descriptor.toList ∧ ';' ∉ after

/-- Reading to the end of the pieces finds a semicolon after each `L`, and one for a name that was begun. -/
theorem piecesFrom_snd (name : Option (List Char)) (text : List Char) : (piecesFrom name text).2 = true ↔
      (name.isSome → ';' ∈ text) ∧ ∀ after, 'L' :: after <:+ text → ';' ∈ after := by
  have step (c : Char) (rest : List Char) :
      (∀ after, 'L' :: after <:+ c :: rest → ';' ∈ after) ↔
        (c = 'L' → ';' ∈ rest) ∧ ∀ after, 'L' :: after <:+ rest → ';' ∈ after := by
    simp only [suffix_cons_iff, List.cons.injEq, or_imp, forall_and]
    refine and_congr_left fun _ => ⟨fun ends same => ends rest ⟨same.symm, rfl⟩, ?_⟩
    rintro ends _ ⟨same, rfl⟩
    exact ends same.symm
  induction text generalizing name with
  | nil => cases name <;> simp [piecesFrom]
  | cons c rest ih =>
    rw [step]
    cases name with
    | none => by_cases start : c = 'L' <;> simp [piecesFrom, start, ih]
    | some chars =>
      by_cases finish : c = ';'
      · simp [piecesFrom, finish, ih]
      · rw [piecesFrom, if_neg finish]
        refine (ih (some (c :: chars))).trans ?_
        constructor
        · rintro ⟨ends, others⟩
          exact ⟨fun _ => mem_cons_of_mem c (ends rfl), fun _ => ends rfl, others⟩
        · rintro ⟨ends, -, others⟩
          exact ⟨fun _ => (mem_cons.mp (ends rfl)).resolve_left (Ne.symm finish), others⟩

theorem complete_iff : Complete descriptor ↔ ¬ Unterminated descriptor := by
  simp [Complete, pieces, piecesFrom_snd, Unterminated]

theorem exists_row (complete : Complete descriptor) :
    ∃ row, pieces descriptor.toList = (row, true) ∧ descriptor.toList = spell row ∧ ∀ piece ∈ row, piece.WellSpelled :=
  ⟨_, Prod.ext rfl complete, pieces_eq_iff.mp (Prod.ext rfl complete)⟩

def Piece.name? : Piece → Option String
  | .char _ => none
  | .name chars => some (String.ofList chars)

def names (descriptor : String) : List String := (pieces descriptor.toList).1.filterMap Piece.name?

theorem mem_names : name ∈ names descriptor ↔ .name name.toList ∈ (pieces descriptor.toList).1 := by
  rw [names, mem_filterMap]
  constructor
  · rintro ⟨_ | chars, listed, named⟩
    · simp [Piece.name?] at named
    · obtain rfl := Option.some.inj named
      simpa using listed
  · intro listed
    exact ⟨_, listed, by simp [Piece.name?]⟩

theorem semicolon_notMem_names (listed : name ∈ names descriptor) : ';' ∉ name.toList :=
  wellSpelled_piecesFrom none descriptor.toList (by simp) _ (mem_names.mp listed)

def Piece.rename (change : String → String) : Piece → Piece
  | .char c => .char c
  | .name chars => .name (change (String.ofList chars)).toList

def rename (change : String → String) (descriptor : String) : String :=
  String.ofList (spell ((pieces descriptor.toList).1.map (Piece.rename change)))

theorem Piece.wellSpelled_rename (spelled : ∀ piece ∈ row, piece.WellSpelled)
    (separated : ∀ name : String, .name name.toList ∈ row → ';' ∉ (change name).toList) :
    ∀ piece ∈ row.map (Piece.rename change), piece.WellSpelled := by
  intro image member
  obtain ⟨piece, listed, rfl⟩ := mem_map.mp member
  cases piece with
  | char c => exact spelled _ listed
  | name chars => exact separated (String.ofList chars) (by simpa using listed)

section

variable (complete : Complete descriptor) (separated : ∀ name ∈ names descriptor, ';' ∉ (change name).toList)
include complete separated

theorem pieces_rename : pieces (rename change descriptor).toList =
      ((pieces descriptor.toList).1.map (Piece.rename change), true) := by
  obtain ⟨row, cut, -, spelled⟩ := exists_row complete
  rw [rename, String.toList_ofList, cut]
  exact pieces_spell (Piece.wellSpelled_rename spelled fun name listed =>
    separated name (mem_names.mpr (cut ▸ listed)))

theorem complete_rename : Complete (rename change descriptor) := by
  rw [Complete, pieces_rename complete separated]

theorem rename_rename : rename further (rename change descriptor) = rename (further ∘ change) descriptor := by
  rw [rename, pieces_rename complete separated, rename, map_map]
  congr 2
  apply map_congr_left
  rintro (c | chars) -
  · rfl
  · simp [Piece.rename]

end

theorem rename_congr (same : ∀ name ∈ names descriptor, change name = further name) :
    rename change descriptor = rename further descriptor := by
  rw [rename, rename]
  congr 2
  apply map_congr_left
  rintro (c | chars) listed
  · rfl
  · rw [Piece.rename, Piece.rename, same (String.ofList chars) (by simpa [mem_names] using listed)]

theorem rename_eq_self (complete : Complete descriptor) (same : ∀ name ∈ names descriptor, change name = name) :
    rename change descriptor = descriptor := by
  have unchanged : rename change descriptor = rename id descriptor := rename_congr same
  obtain ⟨row, cut, written, -⟩ := exists_row complete
  have kept : row.map (Piece.rename id) = row := by
    conv_rhs => rw [← map_id row]
    apply map_congr_left
    rintro (c | chars) - <;> simp [Piece.rename]
  rw [unchanged, rename, cut, kept, ← written, String.ofList_toList]

/-- Descriptors that are called the same after renaming were the same, if different names stay different. -/
theorem rename_injective {other : String} {known : Set String} (distinct : Set.InjOn change known)
    (separated : ∀ name ∈ known, ';' ∉ (change name).toList)
    (complete : Complete descriptor) (inside : ∀ name ∈ names descriptor, name ∈ known)
    (otherComplete : Complete other) (otherInside : ∀ name ∈ names other, name ∈ known)
    (same : rename change descriptor = rename change other) : descriptor = other := by
  have back (text : String) (textComplete : Complete text) (textInside : ∀ name ∈ names text, name ∈ known) :
      rename (Function.invFunOn change known) (rename change text) = text := by
    rw [rename_rename textComplete fun name listed => separated name (textInside name listed)]
    exact rename_eq_self textComplete fun name listed => distinct.leftInvOn_invFunOn (textInside name listed)
  rw [← back descriptor complete inside, same, back other otherComplete otherInside]

theorem startsWith_rename {mark : Char} (complete : Complete descriptor) :
    startsWith mark (rename change descriptor) = startsWith mark descriptor := by
  obtain ⟨row, cut, written, -⟩ := exists_row complete
  rw [startsWith, startsWith, rename, String.toList_ofList, cut, written]
  cases row with
  | nil => rfl
  | cons piece row =>
    cases piece <;> simp [Piece.rename, Piece.toChars]

theorem semicolon_mem_rename (complete : Complete descriptor) (held : ';' ∈ descriptor.toList) :
    ';' ∈ (rename change descriptor).toList := by
  obtain ⟨row, cut, written, -⟩ := exists_row complete
  rw [written, spell, mem_flatten] at held
  obtain ⟨chars, listed, mark⟩ := held
  obtain ⟨piece, member, rfl⟩ := mem_map.mp listed
  rw [rename, String.toList_ofList, cut, spell, mem_flatten]
  refine ⟨(piece.rename change).toChars, ?_, ?_⟩
  · exact mem_map_of_mem (mem_map_of_mem member)
  · cases piece with
    | char c => exact mark
    | name chars => simp [Piece.rename, Piece.toChars]

/-- A complete descriptor without a semicolon has no names, so it is the same under all of them. -/
theorem rename_of_notMem (complete : Complete descriptor) (absent : ';' ∉ descriptor.toList) :
    rename change descriptor = descriptor := by
  obtain ⟨row, cut, written, -⟩ := exists_row complete
  refine rename_eq_self complete fun name listed => absurd ?_ absent
  rw [mem_names, cut] at listed
  rw [written, spell, mem_flatten]
  exact ⟨_, mem_map_of_mem listed, by simp [Piece.toChars]⟩

end changedNames

end Descriptor

namespace Renamer

variable {renamer : Renamer} {change : String → String} {descriptor : String}

open Descriptor

theorem mapDescriptor_eq_ok {new : String} : renamer.mapDescriptor descriptor = .ok new ↔
      ∃ row mapped, pieces descriptor.toList = (row, true) ∧
        List.Forall₂ (fun piece image => piece.map renamer = .ok image) row mapped ∧ new.toList = spell mapped := by
  unfold mapDescriptor
  obtain ⟨row, complete⟩ := pieces descriptor.toList
  simp only [within_eq_ok, bind_eq_ok, mapM_eq_ok]
  cases complete with
  | false => simp
  | true =>
    simp only [if_true, pure_eq_ok, joined, Prod.mk.injEq, and_true]
    constructor
    · rintro ⟨mapped, images, rfl⟩
      exact ⟨row, mapped, rfl, images, by simp [spell]⟩
    · rintro ⟨_, mapped, rfl, images, written⟩
      exact ⟨mapped, images, by rw [← spell, ← written, String.ofList_toList]⟩

section total

variable (total : ∀ name, renamer.mapClass name = .ok (change name))
include total

/-- If every class has an answer, only a missing semicolon can be in the way. -/
theorem mapDescriptor_eq : renamer.mapDescriptor descriptor = within (.mapDescriptor descriptor)
      (if (pieces descriptor.toList).2 then .ok (rename change descriptor)
        else fail (.missingSemicolon descriptor)) := by
  have images : Piece.map renamer = fun piece => pure (piece.rename change) := by
    funext piece
    cases piece with
    | char c => rfl
    | name chars => rw [Piece.map, total]; rfl
  rw [mapDescriptor, images]
  simp only [mapM_pure, pure_bind]
  rfl

theorem mapDescriptor_total {new : String} :
    renamer.mapDescriptor descriptor = .ok new ↔ Complete descriptor ∧ new = rename change descriptor := by
  rw [mapDescriptor_eq total, within_eq_ok, Complete]
  cases (pieces descriptor.toList).2 with
  | true => simp [eq_comm]
  | false => simp

end total

/-- The renamer has an answer for every class. -/
def NeverFails (renamer : Renamer) : Prop := ∀ name, ∃ new, renamer.mapClass name = .ok new

theorem NeverFails.exists_change (neverFails : renamer.NeverFails) :
    ∃ change : String → String, ∀ name, renamer.mapClass name = .ok (change name) :=
  ⟨_, fun name => (neverFails name).choose_spec⟩

/-- Descriptors are renamed class by class. Whether one can be renamed does not depend on the new names; to keep all
names keeps the descriptor; and to rename it twice is to rename it once by both renamers in a row, as long as no name
in between has a semicolon. So the second renamer undoes the first one on the descriptor if it does on the classes. -/
theorem mapDescriptor_homomorphism {first second both : Renamer} (neverFails : first.NeverFails)
    (neverFailsToo : second.NeverFails)
    (joined : ∀ name, both.mapClass name = first.mapClass name >>= second.mapClass) (descriptor : String) :
    ((∃ failure, first.mapDescriptor descriptor = .error failure) ↔ Unterminated descriptor) ∧
    (∀ new, keep.mapDescriptor descriptor = .ok new → new = descriptor) ∧
    ((∀ name ∈ names descriptor, ∀ new, first.mapClass name = .ok new → ';' ∉ new.toList) →
      (first.mapDescriptor descriptor >>= second.mapDescriptor) = both.mapDescriptor descriptor ∧
      ((∀ name ∈ names descriptor, (first.mapClass name >>= second.mapClass) = .ok name) →
        ∀ new, first.mapDescriptor descriptor = .ok new → second.mapDescriptor new = .ok descriptor)) := by
  obtain ⟨change, total⟩ := neverFails.exists_change
  obtain ⟨further, totalToo⟩ := neverFailsToo.exists_change
  have kept (name : String) : keep.mapClass name = .ok (id name) := rfl
  have inRow (name : String) : both.mapClass name = .ok ((further ∘ change) name) := by
    rw [joined, total]
    exact totalToo _
  refine ⟨?_, ?_, fun separated => ?_⟩
  · rw [← not_iff_not, ← complete_iff, Complete, mapDescriptor_eq total]
    cases (pieces descriptor.toList).2 with
    | true => simp [Outcome.within]
    | false => simp [Outcome.within, Outcome.fail]
  · intro new mapped
    obtain ⟨complete, rfl⟩ := (mapDescriptor_total kept).mp mapped
    exact rename_eq_self complete fun _ _ => rfl
  · have apart : ∀ name ∈ names descriptor, ';' ∉ (change name).toList :=
      fun name listed => separated name listed _ (total name)
    have twice (complete : Complete descriptor) :
        second.mapDescriptor (rename change descriptor) = .ok (rename (further ∘ change) descriptor) :=
      (mapDescriptor_total totalToo).mpr ⟨complete_rename complete apart, (rename_rename complete apart).symm⟩
    refine ⟨?_, fun undone new mapped => ?_⟩
    · rw [mapDescriptor_eq total, mapDescriptor_eq inRow]
      cases complete : (pieces descriptor.toList).2 with
      | true => simpa [Outcome.within, bind, Except.bind] using twice complete
      | false => simp [Outcome.within, Outcome.fail, bind, Except.bind]
    · obtain ⟨complete, rfl⟩ := (mapDescriptor_total total).mp mapped
      rw [twice complete, rename_eq_self complete fun name listed => ?_]
      exact Except.ok.inj (((joined name).symm.trans (inRow name)).symm.trans (undone name listed))

/-- Renames one class and keeps all other names. -/
def ofClass (old new : String) : Renamer :=
  { keep with className? := fun name => .ok (if name = old then some new else none) }

theorem mapClass_ofClass (old new name : String) :
    (ofClass old new).mapClass name = .ok (if name = old then new else name) := by
  by_cases renamed : name = old <;> simp [mapClass, ofClass, renamed]

theorem mapDescriptor_homomorphism_thereAndBack :
    Unterminated "(La" ∧ (∃ failure, (ofClass "a" "x/A").mapDescriptor "(La" = .error failure) ∧
      (ofClass "a" "x/A").mapDescriptor "([[La;IJ)La$b;" = .ok "([[Lx/A;IJ)La$b;" ∧
      (ofClass "x/A" "a").mapDescriptor "([[Lx/A;IJ)La$b;" = .ok "([[La;IJ)La$b;" := by
  have neverFails (old new : String) : (ofClass old new).NeverFails := fun name => ⟨_, rfl⟩
  have joined (name : String) : (ofClass "x/A" "a").mapClass name =
      (ofClass "a" "x/A").mapClass name >>= (ofClass "x/A" "a").mapClass := by
    by_cases renamed : name = "a" <;> simp [mapClass_ofClass, renamed, bind, Except.bind]
  have listed : names "([[La;IJ)La$b;" = ["a", "a$b"] := by decide
  have cut : Unterminated "(La" := ⟨['a'], by decide, by decide⟩
  have there : (ofClass "a" "x/A").mapDescriptor "([[La;IJ)La$b;" = .ok "([[Lx/A;IJ)La$b;" := by rfl
  have laws := mapDescriptor_homomorphism (neverFails "a" "x/A") (neverFails "x/A" "a") joined
  refine ⟨cut, (laws "(La").1.mpr cut, there, ((laws _).2.2 ?_).2 ?_ _ there⟩ <;> rw [listed] <;>
    simp [mapClass_ofClass, bind, Except.bind]

end Renamer

end JarRemap
