import JarRemap.Proofs.TreePlaces

/-!
# The files below a directory

The files below a place are listed in one order, whatever the order in which they came to be: places are
compared name by name, and this order is total. So the list is known from what stands at each place, and two
trees with the same files of some kind list the same files of that kind.
-/
namespace JarRemap

open List

namespace FileTree

variable {tree before after : FileTree} {place : Place}

theorem placeBefore_total (left right : Place) : (placeBefore left right || placeBefore right left) = true := by
  induction left generalizing right with
  | nil => simp [placeBefore]
  | cons name rest ih =>
    cases right with
    | nil => simp [placeBefore]
    | cons other others =>
      by_cases same : name = other
      · simpa [placeBefore, same] using ih others
      · simpa [placeBefore, same, Ne.symm same] using lt_or_gt_of_ne same

theorem placeBefore_trans {left middle right : Place} (first : placeBefore left middle = true)
    (second : placeBefore middle right = true) : placeBefore left right = true := by
  induction left generalizing middle right with
  | nil => simp [placeBefore]
  | cons name rest ih =>
    cases middle with
    | nil => simp [placeBefore] at first
    | cons between betweens =>
      cases right with
      | nil => simp [placeBefore] at second
      | cons other others =>
        by_cases same : name = between
        · subst same
          by_cases sameAgain : name = other
          · subst sameAgain
            simp only [placeBefore, if_true] at first second ⊢
            exact ih first second
          · simpa [placeBefore, sameAgain] using second
        · by_cases sameAgain : between = other
          · subst sameAgain
            simpa [placeBefore, same] using first
          · simp only [placeBefore, same, sameAgain, if_false, decide_eq_true_eq] at first second
            have less := lt_trans first second
            simpa [placeBefore, less.ne] using less

theorem placeBefore_antisymm {left right : Place} (first : placeBefore left right = true)
    (second : placeBefore right left = true) : left = right := by
  induction left generalizing right with
  | nil =>
    cases right with
    | nil => rfl
    | cons other others => simp [placeBefore] at second
  | cons name rest ih =>
    cases right with
    | nil => simp [placeBefore] at first
    | cons other others =>
      by_cases same : name = other
      · subst same
        simp only [placeBefore, if_true] at first second
        rw [ih first second]
      · simp only [placeBefore, same, Ne.symm same, if_false, decide_eq_true_eq] at first second
        exact absurd first (lt_asymm second)

theorem mem_filesBelow {names : Place} {content : FileContent} : (names, content) ∈ tree.filesBelow place ↔
      names ≠ [] ∧ tree.node? (place ++ names) = some (.file content) := by
  rw [filesBelow, mem_mergeSort, mem_filterMap]
  constructor
  · rintro ⟨⟨other, node⟩, listed, found⟩
    cases node with
    | directory => cases found
    | file held =>
      dsimp only at found
      split at found
      case isFalse => cases found
      case isTrue below =>
        simp only [Bool.and_eq_true, decide_eq_true_eq, beq_iff_eq] at below
        obtain ⟨rfl, rfl⟩ := Prod.mk.inj (Option.some.inj found)
        have joined : place ++ other.drop place.length = other := by
          rw [← below.2, length_take, Nat.min_eq_left below.1.le, take_append_drop]
        have notRoot : other ≠ [] := by
          rintro rfl
          exact absurd below.1 (Nat.not_lt_zero _)
        refine ⟨?_, ?_⟩
        · rw [ne_eq, drop_eq_nil_iff]
          exact Nat.not_le.mpr below.1
        · rw [joined, node?, if_neg notRoot]
          exact OrderedMap.mem_entries.mp listed
  · rintro ⟨some, standing⟩
    have notRoot : place ++ names ≠ [] := by simp [some]
    rw [node?, if_neg notRoot] at standing
    refine ⟨(place ++ names, .file content), OrderedMap.mem_entries.mpr standing, ?_⟩
    simp [length_pos_iff_ne_nil.mpr some]

theorem nodup_filesBelow (tree : FileTree) (place : Place) : (tree.filesBelow place).Nodup := by
  rw [filesBelow, nodup_mergeSort]
  refine List.Nodup.filterMap ?_ (List.Nodup.of_map _ tree.nodes.distinct)
  rintro ⟨other, node⟩ ⟨another, otherNode⟩ found inFirst inSecond
  cases node with
  | directory => cases inFirst
  | file content =>
    cases otherNode with
    | directory => cases inSecond
    | file otherContent =>
      dsimp only at inFirst inSecond
      split at inFirst
      case isFalse => cases inFirst
      case isTrue below =>
        split at inSecond
        case isFalse => cases inSecond
        case isTrue otherBelow =>
          simp only [Bool.and_eq_true, beq_iff_eq] at below otherBelow
          cases inFirst
          obtain ⟨sameNames, rfl⟩ := Prod.mk.inj (Option.some.inj inSecond)
          have same : other = another := by
            rw [← take_append_drop place.length other, ← take_append_drop place.length another,
              below.2, otherBelow.2, sameNames]
          rw [same]

theorem pairwise_filesBelow (tree : FileTree) (place : Place) :
    (tree.filesBelow place).Pairwise fun left right => placeBefore left.1 right.1 = true := by
  apply pairwise_mergeSort
  · intro left middle right
    exact placeBefore_trans
  · intro left right
    exact placeBefore_total left.1 right.1

theorem filter_filesBelow_eq (kind : Place × FileContent → Bool)
    (same : ∀ names content, kind (names, content) = true → names ≠ [] →
      (before.node? (place ++ names) = some (.file content) ↔ after.node? (place ++ names) = some (.file content))) :
    (before.filesBelow place).filter kind = (after.filesBelow place).filter kind := by
  have sameMembers : ∀ entry, entry ∈ (before.filesBelow place).filter kind ↔
      entry ∈ (after.filesBelow place).filter kind := by
    rintro ⟨names, content⟩
    simp only [mem_filter, mem_filesBelow]
    constructor
    · rintro ⟨⟨some, standing⟩, chosen⟩
      exact ⟨⟨some, (same names content chosen some).mp standing⟩, chosen⟩
    · rintro ⟨⟨some, standing⟩, chosen⟩
      exact ⟨⟨some, (same names content chosen some).mpr standing⟩, chosen⟩
  refine List.Perm.eq_of_pairwise ?_ ((before.pairwise_filesBelow place).filter kind)
    ((after.pairwise_filesBelow place).filter kind) ?_
  · rintro ⟨names, content⟩ ⟨others, otherContent⟩ listed otherListed first second
    obtain rfl := placeBefore_antisymm first second
    have standing := (mem_filesBelow.mp (mem_filter.mp listed).1).2
    have otherStanding := (mem_filesBelow.mp (mem_filter.mp ((sameMembers _).mpr otherListed)).1).2
    rw [standing] at otherStanding
    cases otherStanding
    rfl
  · exact (perm_ext_iff_of_nodup ((before.nodup_filesBelow place).filter kind)
      ((after.nodup_filesBelow place).filter kind)).mpr sameMembers

end FileTree

end JarRemap
