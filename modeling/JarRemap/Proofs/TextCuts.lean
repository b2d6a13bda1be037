import JarRemap.Text.Cut
import Mathlib

/-!
# What cutting a text means

A cut at the last mark is the only way to write the text around that mark with no mark after it, and a cut at
the first mark the only way to write it with no mark before. Dropping a known beginning or end undoes an append,
and a character that was replaced by one that was not there can be put back.
-/
namespace JarRemap.Text

open List

variable {mark : Char} {text rest second first other after : List Char}

theorem cutLast?_eq_none : cutLast? mark text = none ↔ mark ∉ text := by
  induction text with
  | nil => simp [cutLast?]
  | cons c rest ih =>
    rw [cutLast?]
    split
    case h_1 before after found =>
      have present : mark ∈ rest := by
        by_contra absent
        simp [ih.mpr absent] at found
      simp [present]
    case h_2 none =>
      have absent : mark ∉ rest := ih.mp none
      by_cases same : c = mark
      · simp [same]
      · simp [same, absent, Ne.symm same]

theorem cutLast?_append (before : List Char) (absent : mark ∉ after) :
    cutLast? mark (before ++ mark :: after) = some (before, after) := by
  induction before with
  | nil => simp [cutLast?, cutLast?_eq_none.mpr absent]
  | cons c before ih => simp [cutLast?, ih]

theorem cutLast?_eq_some {before : List Char} :
    cutLast? mark text = some (before, after) ↔ text = before ++ mark :: after ∧ mark ∉ after := by
  constructor
  · intro found
    have present : mark ∈ text.reverse := by
      by_contra absent
      simp [cutLast?_eq_none.mpr (by simpa using absent)] at found
    obtain ⟨back, front, shape, absent⟩ := eq_append_cons_of_mem present
    have split : text = front.reverse ++ mark :: back.reverse := by
      simpa using congrArg List.reverse shape
    rw [split, cutLast?_append _ (by simpa using absent)] at found
    obtain ⟨rfl, rfl⟩ := Prod.mk.inj (Option.some.inj found)
    exact ⟨split, by simpa using absent⟩
  · rintro ⟨rfl, absent⟩
    exact cutLast?_append before absent

theorem append_inj_of_absent (absent : mark ∉ first) (absentToo : mark ∉ second)
    (cut : ∀ c ∈ rest.head?, c = mark) (cutToo : ∀ c ∈ other.head?, c = mark)
    (same : first ++ rest = second ++ other) : first = second ∧ rest = other := by
  induction first generalizing second with
  | nil =>
    cases second with
    | nil => exact ⟨rfl, same⟩
    | cons c second =>
      have marked : c = mark := cut c (by rw [nil_append] at same; simp [same])
      exact absurd (marked ▸ mem_cons_self) absentToo
  | cons c first ih =>
    cases second with
    | nil =>
      have marked : c = mark := cutToo c (by rw [nil_append] at same; simp [← same])
      exact absurd (marked ▸ mem_cons_self) absent
    | cons d second =>
      rw [cons_append, cons_append, List.cons.injEq] at same
      obtain ⟨rfl, same⟩ := same
      obtain ⟨rfl, rfl⟩ := ih (not_mem_of_not_mem_cons absent)
        (not_mem_of_not_mem_cons absentToo) same
      exact ⟨rfl, rfl⟩

theorem cons_append_inj_of_absent (absent : mark ∉ first) (absentToo : mark ∉ second)
    (same : first ++ mark :: rest = second ++ mark :: other) : first = second ∧ rest = other := by
  obtain ⟨sameFirst, sameRest⟩ := append_inj_of_absent absent absentToo (by simp) (by simp) same
  exact ⟨sameFirst, tail_eq_of_cons_eq sameRest⟩

theorem append_cons_inj_of_absent (absent : mark ∉ rest) (absentToo : mark ∉ other)
    (same : first ++ mark :: rest = second ++ mark :: other) : first = second ∧ rest = other := by
  have cuts := congrArg (cutLast? mark) same
  rw [cutLast?_append first absent, cutLast?_append second absentToo] at cuts
  exact Prod.mk.inj (Option.some.inj cuts)

theorem dropStart?_eq_some {start : List Char} : dropStart? start text = some rest ↔ text = start ++ rest := by
  induction start generalizing text with
  | nil => simp [dropStart?]
  | cons s start ih =>
    cases text with
    | nil => simp [dropStart?]
    | cons c text =>
      rw [dropStart?]
      by_cases same : s = c
      · simp [same, ih]
      · simp [same, Ne.symm same]

theorem dropEnd?_eq_some {finish front : List Char} : dropEnd? finish text = some front ↔ text = front ++ finish := by
  simp only [dropEnd?, Option.map_eq_some_iff, dropStart?_eq_some]
  constructor
  · rintro ⟨reversed, split, rfl⟩
    rw [← reverse_reverse text, split]
    simp
  · rintro rfl
    exact ⟨front.reverse, by simp, by simp⟩

theorem replaceChar_replaceChar {old new : Char} {text : String} (absent : new ∉ text.toList) :
    replaceChar new old (replaceChar old new text) = text := by
  rw [replaceChar, replaceChar, String.toList_ofList, map_map]
  have back : text.toList.map ((fun c => if c = new then old else c) ∘ fun c => if c = old then new else c) =
      text.toList := by
    refine (map_congr_left fun c listed => ?_).trans (map_id _)
    have other : c ≠ new := fun same => absent (same ▸ listed)
    by_cases replaced : c = old
    · simp [replaced]
    · simp [replaced, other]
  rw [back, String.ofList_toList]

end JarRemap.Text
