import JarRemap.Proofs.WrittenTransforms

/-!
# Sets of transforms that were built

A set is built by merging transforms that change something. A merge may be refused, and the merge of a whole set
half way; what was merged before stays. After every such history the set is grounded: an entry that changes
nothing is there only because its class has another entry that changes something.
-/
namespace JarRemap

open List AccessTransform ClassTransforms

namespace AccessTransform

theorem merge_idle (transform : AccessTransform) : transform.merge .idle = .ok transform := by
  obtain ⟨_ | _, _ | _⟩ := transform <;> rfl

theorem Combines.eq_idle {Asked : AccessTransform → Prop} (combined : idle.Combines Asked) {part : AccessTransform}
    (asked : Asked part) : part = idle := by
  have visibility : part.visibility = none := Visibility.demand_injective (Nat.le_zero.mp (combined.widest part asked))
  have finalChange : part.finalChange = .keep := by
    by_contra proper
    exact proper ((combined.changes part.finalChange proper).mpr ⟨part, asked, rfl⟩).symm
  cases part
  cases visibility
  cases finalChange
  rfl

theorem merge_ne_idle {first second merged : AccessTransform} (run : first.merge second = .ok merged)
    (active : first ≠ .idle ∨ second ≠ .idle) : merged ≠ .idle := by
  rintro rfl
  have combined := merge_combines run
  rcases active with active | active
  · exact active (combined.eq_idle (.inl rfl))
  · exact active (combined.eq_idle (.inr rfl))

end AccessTransform

theorem Widening.transform_ne_idle (widening : Widening) : widening.transform ≠ .idle := by
  rcases widening with ⟨_ | _⟩ | ⟨_ | _⟩ | ⟨_ | _⟩ <;> rintro ⟨⟩

namespace TransformSet

variable {set other after between : TransformSet} {target : AccessTarget} {transform : AccessTransform}
  {owner : String}

namespace EditM

variable {first edit : EditM Unit} {next : Unit → EditM Unit} {failure : Failure}

theorem result_lift_bind {α : Type} {outcome : Outcome α} {value : α} (given : outcome = .ok value)
    (next : α → EditM Unit) : result (liftM outcome >>= next) set = (next value).result set := by
  rw [given]
  rfl

theorem result_tryCatch_of_ok {handle : Failure → EditM Unit}
    (run : edit.result set = (.ok (), after)) : result (tryCatch edit handle) set = (.ok (), after) := by
  change ExceptT.tryCatch edit handle set = _
  change bind (m := StateM TransformSet) edit _ set = _
  simp only [bind, StateT.bind]
  change edit set = _ at run
  rw [run]
  rfl

/-- What two edits keep is kept by one after the other, whether or not the first one is refused. -/
theorem keeps_bind {Holds : TransformSet → Prop} (start : Holds (first.result set).2)
    (continues : ∀ between, Holds between → Holds ((next ()).result between).2) :
    Holds ((first >>= next).result set).2 := by
  rcases run : first.result set with ⟨failure | _, between⟩
  · rw [run] at start
    rwa [result_bind_of_error run]
  · rw [run] at start
    rw [result_bind_of_ok run]
    exact continues between start

theorem build_eq_ok : build edit = .ok set ↔ edit.result .empty = (.ok (), set) := by
  rw [build_eq]
  rcases edit.result .empty with ⟨failure | _, after⟩ <;> simp

theorem build_of_error (run : edit.result .empty = (.error failure, after)) :
    build edit = .error failure := by
  rw [build_eq, run]

end EditM

/-- The set was built by merging transforms that change something, widenings, and sets that were built. -/
inductive Built : TransformSet → Prop
  | empty : Built .empty
  | mergeTarget {set : TransformSet} (built : Built set) (target : AccessTarget) {transform : AccessTransform}
    (active : transform ≠ .idle) : Built ((mergeTarget target transform).result set).2
  | widen {set : TransformSet} (built : Built set) (widening : Widening) : Built ((widen widening).result set).2
  | merge {set other : TransformSet} (built : Built set) (others : Built other) :
    Built ((merge other).result set).2

/-- The symbol is a class that has an entry which changes something, for itself or for a member. -/
def Needed (set : TransformSet) (target : AccessTarget) : Prop :=
  ∃ member transform, set.find? member = some transform ∧ transform ≠ .idle ∧ target = .ofClass member.owner

/-- Entries that change nothing are there for the sake of others. -/
def Grounded (set : TransformSet) : Prop := ∀ target, set.find? target = some .idle → set.Needed target

/-- Entries that change nothing are there for the sake of others, except for that of one class. -/
def GroundedBut (set : TransformSet) (owner : String) : Prop :=
  ∀ target, set.find? target = some .idle → target = .ofClass owner ∨ set.Needed target

theorem Grounded.but (grounded : set.Grounded) (owner : String) : set.GroundedBut owner :=
  fun target idle => .inr (grounded target idle)

theorem Needed.mono (needed : set.Needed target)
    (kept : ∀ member transform, set.find? member = some transform → transform ≠ .idle →
      ∃ now, after.find? member = some now ∧ now ≠ .idle) : after.Needed target := by
  obtain ⟨member, transform, found, active, owned⟩ := needed
  obtain ⟨now, foundNow, activeNow⟩ := kept member transform found active
  exact ⟨member, now, foundNow, activeNow, owned⟩

/-- A target that changes something is a reason for the entry of its class. -/
theorem GroundedBut.mergeTarget (grounded : set.GroundedBut target.owner) (active : transform ≠ .idle) :
    ((mergeTarget target transform).result set).2.Grounded := by
  rcases run : (TransformSet.mergeTarget target transform).result set with ⟨failure | _, after⟩
  · obtain ⟨rfl, current, found, changes⟩ := mergeTarget_refused run
    have proper : current ≠ .idle := by
      rintro rfl
      simp [AccessTransform.idle] at changes
    rintro other idle
    rcases grounded other idle with owner | needed
    · exact ⟨target, current, found, proper, owner⟩
    · exact needed
  · obtain ⟨merged, whole, rfl⟩ := put_of_mergeTarget run
    have proper : merged ≠ .idle := merge_ne_idle whole (.inr active)
    have here : (set.put target merged).find? target = some merged := by rw [find?_put, if_pos rfl]
    rintro other idle
    rw [find?_put] at idle
    split at idle
    case isTrue same => exact absurd (Option.some.inj idle) proper
    case isFalse =>
      split at idle
      case isTrue owner => exact ⟨target, merged, here, proper, owner⟩
      case isFalse elsewhere =>
        refine ((grounded other idle).resolve_left elsewhere).mono fun member current found activeBefore => ?_
        rw [find?_put]
        split
        case isTrue => exact ⟨merged, rfl, proper⟩
        case isFalse =>
          split
          case isTrue => exact ⟨current, by rw [found, Option.getD_some], activeBefore⟩
          case isFalse => exact ⟨current, found, activeBefore⟩

theorem find?_mergeClass (set : TransformSet) (owner : String) :
    ∃ after, (mergeTarget (.ofClass owner) .idle).result set = (.ok (), after) ∧ ∀ other, after.find? other =
        if other = .ofClass owner then some ((set.find? other).getD .idle) else set.find? other := by
  rw [result_mergeTarget, merge_idle]
  refine ⟨_, rfl, fun other => ?_⟩
  rw [find?_put, AccessTarget.owner]
  split
  case isTrue same => rw [same]
  case isFalse => rfl

theorem Grounded.mergeClass (grounded : set.Grounded) (answer : ∀ other, after.find? other =
      if other = .ofClass owner then some ((set.find? other).getD .idle) else set.find? other) :
    after.GroundedBut owner := by
  intro other idle
  rw [answer] at idle
  split at idle
  case isTrue same => exact .inl same
  case isFalse elsewhere =>
    refine .inr ((grounded other idle).mono fun member current found active => ⟨current, ?_, active⟩)
    rw [answer, found, Option.getD_some, ite_self]

theorem mergeLines_append (front back : List TransformerLine) :
    mergeLines (front ++ back) = (do mergeLines front; mergeLines back) :=
  forM_append

theorem Grounded.mergeLines (grounded : set.Grounded) {lines : List TransformerLine}
    (active : ∀ line ∈ lines, line.transform ≠ .idle) : ((mergeLines lines).result set).2.Grounded := by
  induction lines generalizing set with
  | nil => exact grounded
  | cons line lines ih =>
    obtain ⟨here, later⟩ := forall_mem_cons.mp active
    rw [mergeLines_cons]
    exact EditM.keeps_bind ((grounded.but _).mergeTarget here) fun between kept =>
      ih kept later

/-- The lines of a class keep the set grounded if one of them changes something and those for members all do. -/
theorem Grounded.mergeLinesOf (grounded : set.Grounded) {transforms : ClassTransforms}
    (members : ∀ line ∈ (transforms.linesOf owner).tail, line.transform ≠ .idle)
    (nonempty : transforms.access = .idle → (transforms.linesOf owner).tail ≠ []) :
    ((TransformSet.mergeLines (transforms.linesOf owner)).result set).2.Grounded := by
  have split : transforms.linesOf owner = ⟨.ofClass owner, transforms.access⟩ :: (transforms.linesOf owner).tail := rfl
  have owned : ∀ line ∈ (transforms.linesOf owner).tail, line.target.owner = owner := fun line listed =>
    owner_of_mem_linesOf (mem_of_mem_tail listed)
  rw [split, mergeLines_cons]
  by_cases idle : transforms.access = .idle
  · -- the entry that the idle line makes is grounded by the first member
    obtain ⟨first, others, shape⟩ := exists_cons_of_ne_nil (nonempty idle)
    rw [shape] at members owned
    obtain ⟨here, later⟩ := forall_mem_cons.mp members
    obtain ⟨between, run, answer⟩ := find?_mergeClass set owner
    have exempt : between.GroundedBut first.target.owner := by
      rw [owned first mem_cons_self]
      exact grounded.mergeClass answer
    rw [idle, shape, EditM.result_bind_of_ok run, mergeLines_cons]
    exact EditM.keeps_bind (exempt.mergeTarget here) fun after kept => kept.mergeLines later
  · exact EditM.keeps_bind ((grounded.but _).mergeTarget idle) fun between kept => kept.mergeLines members

/-- In a grounded set each class has a line that changes something, and all lines for members do. -/
theorem Grounded.lines_of_mem (grounded : other.Grounded) {entry : String × ClassTransforms}
    (listed : entry ∈ other.classes.entries) : (∀ line ∈ (entry.2.linesOf entry.1).tail, line.transform ≠ .idle) ∧
      (entry.2.access = .idle → (entry.2.linesOf entry.1).tail ≠ []) := by
  have found {line : TransformerLine} (here : line ∈ entry.2.linesOf entry.1) :
      other.find? line.target = some line.transform :=
    mem_allLines.mp (mem_flatMap.mpr ⟨entry, listed, here⟩)
  constructor
  · intro line here idle
    have known := found (mem_of_mem_tail here)
    rw [idle] at known
    obtain ⟨_, _, _, _, isClass⟩ := grounded _ known
    simp only [linesOf, cons_append, tail_cons, mem_append, mem_map] at here
    rcases here with ⟨_, _, rfl⟩ | ⟨_, _, rfl⟩ <;> cases isClass
  · intro idle none
    have known : other.find? (.ofClass entry.1) = some entry.2.access := found mem_cons_self
    rw [idle] at known
    obtain ⟨member, transform, held, active, owner⟩ := grounded _ known
    obtain ⟨owned, there, line⟩ := mem_flatMap.mp (mem_allLines.mpr held)
    have sameOwner : owned.1 = entry.1 :=
      (owner_of_mem_linesOf line).symm.trans (AccessTarget.ofClass.inj owner).symm
    have sameEntry : owned.2 = entry.2 := by
      have first := OrderedMap.mem_entries.mp there
      rw [sameOwner, OrderedMap.mem_entries.mp listed] at first
      exact (Option.some.inj first).symm
    have only : entry.2.linesOf entry.1 = [⟨.ofClass entry.1, entry.2.access⟩] := by
      change _ :: (entry.2.linesOf entry.1).tail = _
      rw [none]
    change _ ∈ owned.2.linesOf owned.1 at line
    rw [sameOwner, sameEntry, only, mem_singleton, idle] at line
    exact active (congrArg TransformerLine.transform line)

theorem Grounded.merge (grounded : set.Grounded) (others : other.Grounded) :
    ((merge other).result set).2.Grounded := by
  change ((TransformSet.mergeLines other.allLines).result set).2.Grounded
  rw [allLines_eq]
  have blocks := fun entry (listed : entry ∈ other.classes.entries) => others.lines_of_mem listed
  generalize other.classes.entries = entries at blocks
  induction entries generalizing set with
  | nil => exact grounded
  | cons entry entries ih =>
    obtain ⟨⟨members, nonempty⟩, later⟩ := forall_mem_cons.mp blocks
    rw [flatMap_cons, mergeLines_append]
    exact EditM.keeps_bind (grounded.mergeLinesOf members nonempty) fun between kept =>
      ih kept later

theorem Built.grounded (built : set.Built) : set.Grounded := by
  induction built with
  | empty =>
    intro target idle
    simp at idle
  | mergeTarget _ target active ih => exact (ih.but _).mergeTarget active
  | widen _ widening ih =>
    exact (ih.but _).mergeTarget widening.transform_ne_idle
  | merge _ _ first second => exact first.merge second

theorem mem_activeLines :
    ⟨target, transform⟩ ∈ set.activeLines ↔ set.find? target = some transform ∧ transform ≠ .idle := by
  rw [activeLines, mem_filter, mem_allLines]
  simp [isIdle]

theorem Grounded.records (grounded : set.Grounded) : set.Records set.activeLines where
  known := by
    intro target
    constructor
    · intro present
      obtain ⟨transform, found⟩ := Option.isSome_iff_exists.mp present
      by_cases idle : transform = .idle
      · rw [idle] at found
        obtain ⟨member, transform, held, active, owner⟩ := grounded target found
        exact ⟨⟨member, transform⟩, mem_activeLines.mpr ⟨held, active⟩, .inr owner⟩
      · exact ⟨⟨target, transform⟩, mem_activeLines.mpr ⟨found, idle⟩, .inl rfl⟩
    · rintro ⟨line, listed, about⟩
      have held : (set.find? line.target).isSome := by rw [(mem_activeLines.mp listed).1, Option.isSome_some]
      rcases about with rfl | rfl
      · exact held
      · exact find?_owner_isSome held
  combined := by
    intro target transform found
    by_cases idle : transform = .idle
    · rw [idle] at found ⊢
      refine idle_combines_none.congr fun part => iff_of_false id fun listed => ?_
      obtain ⟨held, active⟩ := mem_activeLines.mp listed
      exact active (Option.mem_unique held found)
    · refine (Combines.self transform).congr fun part => ?_
      rw [mem_activeLines, found, Option.some.injEq]
      constructor
      · rintro rfl
        exact ⟨rfl, idle⟩
      · rintro ⟨same, -⟩
        exact same.symm

end TransformSet

end JarRemap
