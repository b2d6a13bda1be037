import JarRemap.Access.TransformSet
import JarRemap.Proofs.OrderedMaps

/-!
# Merging access transforms

A merged transform is known by what was asked for, not by the order: its visibility is the widest one, and it
changes the final modifier as someone asked. So a set of transforms is told by the lines that were merged into it
(`Records`), and two sets that record the same lines are equal. A merge is refused only if the symbol is made final
by one line and not final by another, and it leaves nothing behind.
-/
namespace JarRemap

open OrderedMap AccessTransform List ClassTransforms Visibility AccessTarget OrderedMap

variable {failure : Failure}

namespace Visibility

/-- The demand as a number; no demand is less than any. -/
def demand : Option Visibility → Nat
  | none => 0
  | some level => level.rank + 1

theorem demand_injective : Function.Injective demand := by
  intro first second same
  rcases first with _ | first <;> rcases second with _ | second
  · rfl
  · cases second <;> simp [demand, rank] at same
  · cases first <;> simp [demand, rank] at same
  · cases first <;> cases second <;> simp_all [demand, rank]

theorem demand_wider (first second : Option Visibility) :
    demand (wider first second) = max (demand first) (demand second) := by
  rcases first with _ | first <;> rcases second with _ | second
  · rfl
  · simp [wider, demand]
  · simp [wider, demand]
  · by_cases narrower : first.rank ≤ second.rank
    · simp [wider, demand, narrower]
    · have below : second.rank ≤ first.rank := by omega
      simp [wider, demand, narrower, below]

theorem wider_eq_or (first second : Option Visibility) : wider first second = first ∨ wider first second = second := by
  rcases first with _ | first <;> rcases second with _ | second
  · exact .inl rfl
  · exact .inr rfl
  · exact .inl rfl
  · rw [wider]
    split
    · exact .inr rfl
    · exact .inl rfl

end Visibility

namespace FinalChange

variable {second first : FinalChange}

theorem merge_eq_ok {merged : FinalChange} (run : first.merge second = .ok merged) {change : FinalChange}
    (proper : change ≠ .keep) : merged = change ↔ first = change ∨ second = change := by
  cases first <;> cases second <;> cases merged <;> simp [merge, Outcome.fail] at run <;> cases change <;> simp_all

theorem merge_eq_error (run : first.merge second = .error failure) :
    first = .remove ∧ second = .add ∨ first = .add ∧ second = .remove := by
  cases first <;> cases second <;> simp [merge] at run <;> simp

end FinalChange

namespace AccessTransform

variable {second first : AccessTransform}

/-- The transform does what the transforms in `Asked` ask for and nothing else: its visibility is the widest
of theirs, and it makes a change to the final modifier if and only if one of them does. -/
structure Combines (whole : AccessTransform) (Asked : AccessTransform → Prop) : Prop where
  widest : ∀ part, Asked part → demand part.visibility ≤ demand whole.visibility
  reached : whole.visibility = none ∨ ∃ part, Asked part ∧ part.visibility = whole.visibility
  changes : ∀ change, change ≠ .keep →
    (whole.finalChange = change ↔ ∃ part, Asked part ∧ part.finalChange = change)

namespace Combines

variable {whole other : AccessTransform} {Asked : AccessTransform → Prop}

theorem self (whole : AccessTransform) : whole.Combines (· = whole) where
  widest := by
    rintro part rfl
    exact le_rfl
  reached := .inr ⟨whole, rfl, rfl⟩
  changes := by simp

theorem congr {Others : AccessTransform → Prop} (combined : whole.Combines Asked)
    (same : ∀ part, Asked part ↔ Others part) : whole.Combines Others := by
  have equal : Asked = Others := funext fun part => propext (same part)
  exact equal ▸ combined

theorem demand_le {limit : Nat} (combined : whole.Combines Asked)
    (bound : ∀ part, Asked part → demand part.visibility ≤ limit) : demand whole.visibility ≤ limit := by
  rcases combined.reached with none | ⟨part, asked, reached⟩
  · rw [none]
    exact Nat.zero_le _
  · rw [← reached]
    exact bound part asked

theorem unique (combined : whole.Combines Asked) (again : other.Combines Asked) : whole = other := by
  have visibility : whole.visibility = other.visibility :=
    demand_injective (le_antisymm (combined.demand_le again.widest) (again.demand_le combined.widest))
  have changes : ∀ change, change ≠ .keep → (whole.finalChange = change ↔ other.finalChange = change) :=
    fun change proper => (combined.changes change proper).trans (again.changes change proper).symm
  have finalChange : whole.finalChange = other.finalChange := by
    by_cases kept : whole.finalChange = .keep
    · by_contra different
      have proper : other.finalChange ≠ .keep := fun same => different (kept.trans same.symm)
      exact different ((changes _ proper).mpr rfl)
    · exact ((changes _ kept).mp rfl).symm
  cases whole
  cases other
  cases visibility
  cases finalChange
  rfl

/-- Combining can be done in parts: what one transform combines can be exchanged for anything else that it
combines. -/
theorem exchange {part : AccessTransform} {Kept Left Right : AccessTransform → Prop}
    (combined : whole.Combines fun one => Kept one ∨ Left one) (left : part.Combines Left)
    (right : part.Combines Right) : whole.Combines fun one => Kept one ∨ Right one := by
  have below : demand part.visibility ≤ demand whole.visibility :=
    left.demand_le fun one asked => combined.widest one (.inr asked)
  refine ⟨?_, ?_, ?_⟩
  · rintro one (kept | asked)
    · exact combined.widest one (.inl kept)
    · exact (right.widest one asked).trans below
  · rcases combined.reached with none | ⟨one, kept | asked, reached⟩
    · exact .inl none
    · exact .inr ⟨one, .inl kept, reached⟩
    · have same : part.visibility = whole.visibility :=
        demand_injective (le_antisymm below (reached ▸ left.widest one asked))
      rw [← same]
      exact right.reached.imp_right fun ⟨other, asked, equal⟩ => ⟨other, .inr asked, equal⟩
  · intro change proper
    rw [combined.changes change proper]
    simp only [or_and_right, exists_or, ← left.changes change proper, ← right.changes change proper]

end Combines

theorem idle_combines_none : idle.Combines fun _ => False where
  widest := by simp
  reached := .inl rfl
  changes := by
    intro change proper
    simpa [idle] using Ne.symm proper

theorem merge_combines {merged : AccessTransform} (run : first.merge second = .ok merged) :
    merged.Combines fun part => part = first ∨ part = second := by
  cases change : first.finalChange.merge second.finalChange with
  | error failure => simp [merge, change, bind, Except.bind] at run
  | ok finalChange =>
    obtain rfl : ⟨wider first.visibility second.visibility, finalChange⟩ = merged := by
      simpa [merge, change, bind, Except.bind, pure, Except.pure] using run
    refine ⟨?_, ?_, ?_⟩
    · rintro part (rfl | rfl)
      · exact (le_max_left _ _).trans (demand_wider _ _).ge
      · exact (le_max_right _ _).trans (demand_wider _ _).ge
    · rcases wider_eq_or first.visibility second.visibility with left | right
      · exact .inr ⟨first, .inl rfl, left.symm⟩
      · exact .inr ⟨second, .inr rfl, right.symm⟩
    · intro other proper
      rw [FinalChange.merge_eq_ok change proper]
      simp

/-- A merge is refused if one part makes the symbol final and the other part makes it not final. -/
theorem merge_refused (run : first.merge second = .error failure) :
    first.finalChange = .remove ∧ second.finalChange = .add ∨
      first.finalChange = .add ∧ second.finalChange = .remove := by
  cases change : first.finalChange.merge second.finalChange with
  | error cause => exact FinalChange.merge_eq_error change
  | ok finalChange => simp [merge, change, bind, Except.bind, pure, Except.pure] at run

end AccessTransform

namespace ClassTransforms

/-- The transform of the class itself or of one of its members. -/
def at? (transforms : ClassTransforms) : AccessTarget → Option AccessTransform
  | .ofClass _ => some transforms.access
  | .ofMethod _ name descriptor => transforms.methods.get? ⟨name, descriptor⟩
  | .ofField _ name => transforms.fields.get? name

def set (transforms : ClassTransforms) (target : AccessTarget) (transform : AccessTransform) :
    ClassTransforms :=
  match target with
  | .ofClass _ => { transforms with access := transform }
  | .ofMethod _ name descriptor =>
    { transforms with methods := transforms.methods.insert ⟨name, descriptor⟩ transform }
  | .ofField _ name => { transforms with fields := transforms.fields.insert name transform }

variable {transforms : ClassTransforms} {target other : AccessTarget} {transform : AccessTransform}

theorem at?_set (siblings : other.owner = target.owner) : (transforms.set target transform).at? other =
      if other = target then some transform else transforms.at? other := by
  cases target <;> cases other <;> simp_all [set, at?, owner, eq_comm]

theorem at?_idle (other : AccessTarget) :
    idle.at? other = if other = .ofClass other.owner then some .idle else none := by
  cases other <;> simp [at?, idle, owner]

theorem set_of_held (held : transforms.at? target = some transform) : transforms.set target transform = transforms := by
  cases target with
  | ofClass owner =>
    obtain rfl := Option.some.inj held
    rfl
  | ofMethod owner name descriptor | ofField owner name => rw [set, insert_of_held held]

theorem same_iff {left right : ClassTransforms} (owner : String) :
    left.same right ↔ ∀ target : AccessTarget, target.owner = owner → left.at? target = right.at? target := by
  simp only [same, Bool.and_eq_true, beq_iff_eq, sameEntries_beq_iff]
  constructor
  · rintro ⟨⟨access, methods⟩, fields⟩ target -
    cases target with
    | ofClass owner => exact congrArg some access
    | ofMethod owner name descriptor => exact methods ⟨name, descriptor⟩
    | ofField owner name => exact fields name
  · intro equal
    refine ⟨⟨?_, fun key => ?_⟩, fun name => ?_⟩
    · exact Option.some.inj (equal (.ofClass owner) rfl)
    · exact equal (.ofMethod owner key.name key.descriptor) rfl
    · exact equal (.ofField owner name) rfl

end ClassTransforms

namespace TransformSet

variable {set after : TransformSet} {target : AccessTarget} {transform : AccessTransform}
  {failure : Failure} {lines : List TransformerLine}

theorem find?_eq (set : TransformSet) (target : AccessTarget) :
    set.find? target = (set.class? target.owner).bind fun transforms => transforms.at? target := by
  cases target with
  | ofClass owner => exact Option.map_eq_bind
  | ofMethod owner name descriptor | ofField owner name => rfl

theorem class?_put (set : TransformSet) (target : AccessTarget) (transform : AccessTransform) (owner : String) :
    (set.put target transform).class? owner =
      if target.owner = owner then some (((set.class? target.owner).getD .idle).set target transform)
      else set.class? owner := by
  cases target <;> exact get?_insert ..

@[simp] theorem find?_empty (target : AccessTarget) : empty.find? target = none := by
  cases target <;> rfl

/-- Putting a transform decides about its symbol. A member brings its class along, with no change to it. -/
theorem find?_put (set : TransformSet) (target : AccessTarget) (transform : AccessTransform) (other : AccessTarget) :
    (set.put target transform).find? other = if other = target then some transform
      else if other = .ofClass target.owner then some ((set.find? other).getD .idle) else set.find? other := by
  rw [find?_eq, find?_eq, class?_put]
  by_cases siblings : target.owner = other.owner
  · rw [if_pos siblings, Option.bind_some, at?_set siblings.symm, siblings]
    cases held : set.class? other.owner with
    | none =>
      rw [Option.getD_none, at?_idle]
      rfl
    | some transforms =>
      by_cases here : other = .ofClass other.owner
      · have found : transforms.at? other = some transforms.access := by rw [here]; rfl
        simp [found]
      · simp [here]
  · have different : other ≠ target := fun same => siblings (congrArg owner same.symm)
    have elsewhere : other ≠ .ofClass target.owner := fun same => siblings (by rw [same]; rfl)
    rw [if_neg siblings, if_neg different, if_neg elsewhere]

theorem put_put (set : TransformSet) (target : AccessTarget) (first second : AccessTransform) :
    (set.put target first).put target second = set.put target second := by
  cases target <;> simp [put, update]

theorem put_of_held (held : set.find? target = some transform) : set.put target transform = set := by
  rw [find?_eq] at held
  obtain ⟨transforms, known, found⟩ := Option.bind_eq_some_iff.mp held
  have unchanged : set.classes.insert target.owner (transforms.set target transform) = set.classes := by
    rw [set_of_held found]
    exact insert_of_held known
  rw [class?] at known
  have put_eq : set.put target transform = ⟨set.classes.insert target.owner (transforms.set target transform)⟩ := by
    cases target <;> simp only [put, update, known, Option.getD_some] <;> rfl
  rw [put_eq, unchanged]

theorem same_iff {other : TransformSet} : set.same other ↔ ∀ target, set.find? target = other.find? target := by
  rw [same, sameEntries_iff]
  constructor
  · intro related target
    have classes := related target.owner
    rw [find?_eq, find?_eq, class?, class?]
    generalize set.classes.get? target.owner = left, other.classes.get? target.owner = right at classes
    cases classes with
    | none => rfl
    | some equal => exact (ClassTransforms.same_iff target.owner).mp equal target rfl
  · intro equal owner
    have answers : ∀ target : AccessTarget, target.owner = owner →
        ((set.class? owner).bind fun transforms => transforms.at? target) =
          (other.class? owner).bind fun transforms => transforms.at? target := by
      intro target owned
      rw [← owned, ← find?_eq, ← find?_eq]
      exact equal target
    have present := answers (.ofClass owner) rfl
    change Option.Rel _ (set.class? owner) (other.class? owner)
    cases left : set.class? owner with
    | none =>
      cases right : other.class? owner with
      | none => exact .none
      | some transforms => simp [left, right, at?] at present
    | some transforms =>
      cases right : other.class? owner with
      | none => simp [left, right, at?] at present
      | some others =>
        refine .some ((ClassTransforms.same_iff owner).mpr fun target owned => ?_)
        simpa [left, right] using answers target owned

theorem mem_allLines : ⟨target, transform⟩ ∈ set.allLines ↔ set.find? target = some transform := by
  rw [find?_eq, Option.bind_eq_some_iff]
  simp only [allLines, mem_flatMap, Prod.exists, mem_entries]
  constructor
  · rintro ⟨owner, transforms, known, listed⟩
    rcases mem_append.mp listed with here | field
    · rcases mem_cons.mp here with class_eq | method
      · cases class_eq
        exact ⟨transforms, known, rfl⟩
      · obtain ⟨⟨key, _⟩, held, method_eq⟩ := mem_map.mp method
        cases method_eq
        exact ⟨transforms, known, mem_entries.mp held⟩
    · obtain ⟨⟨name, _⟩, held, field_eq⟩ := mem_map.mp field
      cases field_eq
      exact ⟨transforms, known, mem_entries.mp held⟩
  · rintro ⟨transforms, known, found⟩
    refine ⟨target.owner, transforms, known, ?_⟩
    cases target with
    | ofClass owner =>
      obtain rfl := Option.some.inj found
      exact mem_append_left _ mem_cons_self
    | ofMethod owner name descriptor =>
      have held := mem_entries.mpr found
      exact mem_append_left _ (mem_cons_of_mem _ (mem_map.mpr ⟨_, held, rfl⟩))
    | ofField owner name =>
      have held := mem_entries.mpr found
      exact mem_append_right _ (mem_map.mpr ⟨_, held, rfl⟩)

theorem find?_owner_isSome (present : (set.find? target).isSome) : (set.find? (.ofClass target.owner)).isSome := by
  rw [find?_eq] at present
  change ((set.class? target.owner).map access).isSome
  cases known : set.class? target.owner with
  | none => simp [known] at present
  | some transforms => rfl

/-- One of the lines makes a symbol final, and another one makes the same symbol not final. -/
def Conflicting (lines : List TransformerLine) : Prop :=
  ∃ target first second, ⟨target, first⟩ ∈ lines ∧ ⟨target, second⟩ ∈ lines ∧
    first.finalChange = .remove ∧ second.finalChange = .add

theorem Conflicting.mono {others : List TransformerLine} (conflicting : Conflicting lines)
    (included : ∀ line ∈ lines, line ∈ others) : Conflicting others := by
  obtain ⟨target, first, second, firstListed, secondListed, removes, adds⟩ := conflicting
  exact ⟨target, first, second, included _ firstListed, included _ secondListed, removes, adds⟩

/-- The set holds what the lines ask for. It knows the symbols of the lines and their classes, and the
transform of each symbol combines those that the lines give for it. -/
structure Records (set : TransformSet) (lines : List TransformerLine) : Prop where
  known : ∀ target, (set.find? target).isSome ↔
    ∃ line ∈ lines, target = line.target ∨ target = .ofClass line.target.owner
  combined : ∀ target transform, set.find? target = some transform →
    transform.Combines fun part => ⟨target, part⟩ ∈ lines

theorem empty_records : empty.Records [] where
  known := by simp
  combined := by simp

theorem records_allLines (set : TransformSet) : set.Records set.allLines where
  known := by
    intro target
    constructor
    · intro present
      obtain ⟨transform, found⟩ := Option.isSome_iff_exists.mp present
      exact ⟨⟨target, transform⟩, mem_allLines.mpr found, .inl rfl⟩
    · rintro ⟨line, listed, about⟩
      have held : (set.find? line.target).isSome := by rw [mem_allLines.mp listed, Option.isSome_some]
      rcases about with rfl | rfl
      · exact held
      · exact find?_owner_isSome held
  combined := by
    intro target transform found
    exact (AccessTransform.Combines.self transform).congr fun part => by simp [mem_allLines, found, eq_comm]

namespace Records

variable {other : TransformSet} {others : List TransformerLine}

section

variable (recorded : set.Records lines)
include recorded

theorem congr (same : ∀ line, line ∈ lines ↔ line ∈ others) : set.Records others where
  known := by simpa [same] using recorded.known
  combined := by simpa [same] using recorded.combined

theorem same (again : other.Records lines) : set.same other := by
  rw [same_iff]
  intro target
  have present : (set.find? target).isSome ↔ (other.find? target).isSome :=
    (recorded.known target).trans (again.known target).symm
  cases left : set.find? target with
  | none =>
    cases right : other.find? target with
    | none => rfl
    | some transform => simp [left, right] at present
  | some transform =>
    cases right : other.find? target with
    | none => simp [left, right] at present
    | some transform =>
      exact congrArg some ((recorded.combined target _ left).unique (again.combined target _ right))

theorem not_conflicting : ¬ Conflicting lines := by
  rintro ⟨target, first, second, firstListed, secondListed, removes, adds⟩
  have present : (set.find? target).isSome := (recorded.known target).mpr ⟨_, firstListed, .inl rfl⟩
  obtain ⟨transform, found⟩ := Option.isSome_iff_exists.mp present
  have changes := (recorded.combined target transform found).changes
  have removed : transform.finalChange = .remove := (changes .remove (by decide)).mpr ⟨first, firstListed, removes⟩
  have added : transform.finalChange = .add := (changes .add (by decide)).mpr ⟨second, secondListed, adds⟩
  rw [removed] at added
  contradiction

theorem current (target : AccessTarget) :
    ((set.find? target).getD .idle).Combines fun part => ⟨target, part⟩ ∈ lines := by
  cases found : set.find? target with
  | some transform => exact recorded.combined target transform found
  | none =>
    have absent : ∀ part, ⟨target, part⟩ ∉ lines := by
      intro part listed
      have present := (recorded.known target).mpr ⟨_, listed, .inl rfl⟩
      simp [found] at present
    exact idle_combines_none.congr fun part => by simp [absent part]

end

end Records

namespace EditM

def result (edit : EditM Unit) (set : TransformSet) : Outcome Unit × TransformSet := edit.run set

variable {first : EditM Unit} {next : Unit → EditM Unit} {between : TransformSet}

theorem result_bind_of_ok (run : first.result set = (.ok (), between)) :
    (first >>= next).result set = (next ()).result between := by
  change result (ExceptT.bindCont next (first.result set).1) (first.result set).2 = _
  rw [run]
  rfl

theorem result_bind_of_error (run : first.result set = (.error failure, after)) :
    (first >>= next).result set = (.error failure, after) := by
  change result (ExceptT.bindCont next (first.result set).1) (first.result set).2 = _
  rw [run]
  rfl

theorem build_eq (edit : EditM Unit) : build edit = match edit.result .empty with
      | (.ok (), set) => .ok set
      | (.error failure, _) => .error failure :=
  rfl

end EditM

/-- What merging one transform does: it puts the merged transform to the symbol, or it is refused and the
symbol keeps what it had. -/
theorem result_mergeTarget (set : TransformSet) (target : AccessTarget) (transform : AccessTransform) :
    (mergeTarget target transform).result set = match ((set.find? target).getD .idle).merge transform with
      | .ok merged => (.ok (), set.put target merged)
      | .error failure => (.error (failure.within target.context), set.put target ((set.find? target).getD .idle)) := by
  change EditM.result (match ((set.find? target).getD .idle).merge transform with
    | .ok merged => modify (·.put target merged)
    | .error failure => throw (failure.within target.context))
      (set.put target ((set.find? target).getD .idle)) = _
  cases ((set.find? target).getD .idle).merge transform with
  | ok merged => exact congrArg (Prod.mk _) (put_put ..)
  | error failure => rfl

theorem put_of_mergeTarget (run : (mergeTarget target transform).result set = (.ok (), after)) :
    ∃ merged, ((set.find? target).getD .idle).merge transform = .ok merged ∧ after = set.put target merged := by
  rw [result_mergeTarget] at run
  cases merged : ((set.find? target).getD .idle).merge transform with
  | error cause => simp [merged] at run
  | ok whole =>
    simp only [merged, Prod.mk.injEq, true_and] at run
    exact ⟨whole, rfl, run.symm⟩

theorem mergeTarget_refused (run : (mergeTarget target transform).result set = (.error failure, after)) :
    after = set ∧ ∃ current, set.find? target = some current ∧
      (current.finalChange = .remove ∧ transform.finalChange = .add ∨
        current.finalChange = .add ∧ transform.finalChange = .remove) := by
  rw [result_mergeTarget] at run
  cases merged : ((set.find? target).getD .idle).merge transform with
  | ok result => simp [merged] at run
  | error cause =>
    have changes := merge_refused merged
    cases found : set.find? target with
    | none => simp [found, AccessTransform.idle] at changes
    | some current =>
      rw [found, Option.getD_some] at changes
      simp only [merged, Prod.mk.injEq] at run
      refine ⟨?_, current, rfl, changes⟩
      rw [← run.2, found, Option.getD_some, put_of_held found]

theorem Records.step (recorded : set.Records lines)
    (run : (mergeTarget target transform).result set = (.ok (), after)) :
    after.Records (lines ++ [⟨target, transform⟩]) := by
  obtain ⟨whole, merged, rfl⟩ := put_of_mergeTarget run
  have combined : whole.Combines fun part => ⟨target, part⟩ ∈ lines ++ [⟨target, transform⟩] :=
    (((merge_combines merged).congr fun part => or_comm).exchange (.self _) (recorded.current target)).congr
      fun part => by simp [or_comm]
  refine ⟨fun other => ?_, fun other found held => ?_⟩
  · rw [find?_put]
    by_cases here : other = target
    · simp [here]
    · by_cases owner : other = .ofClass target.owner
      · rw [if_neg here, if_pos owner]
        simp [owner]
      · simpa [here, owner, or_and_right, exists_or] using recorded.known other
  · rw [find?_put] at held
    by_cases here : other = target
    · obtain rfl : whole = found := by simpa [here] using held
      exact here ▸ combined
    · have elsewhere : found.Combines fun part => ⟨other, part⟩ ∈ lines := by
        by_cases owner : other = .ofClass target.owner
        · obtain rfl : (set.find? other).getD .idle = found := by simpa [here, ← owner] using held
          exact recorded.current other
        · exact recorded.combined other found (by simpa [here, owner] using held)
      exact elsewhere.congr fun part => by simp [here]

theorem Records.refused (recorded : set.Records lines)
    (run : (mergeTarget target transform).result set = (.error failure, after)) :
    Conflicting (lines ++ [⟨target, transform⟩]) := by
  obtain ⟨-, current, found, refused⟩ := mergeTarget_refused run
  have changes := (recorded.combined target current found).changes
  have last : (⟨target, transform⟩ : TransformerLine) ∈ lines ++ [⟨target, transform⟩] := by simp
  rcases refused with ⟨removes, adds⟩ | ⟨adds, removes⟩
  · obtain ⟨part, listed, removed⟩ := (changes .remove (by decide)).mp removes
    exact ⟨target, part, transform, mem_append_left _ listed, last, removed, adds⟩
  · obtain ⟨part, listed, added⟩ := (changes .add (by decide)).mp adds
    exact ⟨target, transform, part, last, mem_append_left _ listed, removes, added⟩

def mergeLines (lines : List TransformerLine) : EditM Unit :=
  lines.forM fun line => mergeTarget line.target line.transform

theorem mergeLines_cons (line : TransformerLine) (lines : List TransformerLine) :
    mergeLines (line :: lines) = (do mergeTarget line.target line.transform; mergeLines lines) :=
  rfl

theorem Records.run (recorded : set.Records lines) (others : List TransformerLine) :
    (∃ after, (mergeLines others).result set = (.ok (), after) ∧ after.Records (lines ++ others)) ∨
      ((∃ failure after, (mergeLines others).result set = (.error failure, after)) ∧
        Conflicting (lines ++ others)) := by
  induction others generalizing set lines with
  | nil => exact .inl ⟨set, rfl, by simpa using recorded⟩
  | cons line others ih =>
    rw [mergeLines_cons, append_cons]
    rcases stepped : (mergeTarget line.target line.transform).result set with ⟨_ | _, between⟩
    · have conflict := recorded.refused stepped
      exact .inr ⟨⟨_, _, EditM.result_bind_of_error stepped⟩, conflict.mono fun _ listed => mem_append_left _ listed⟩
    · rw [EditM.result_bind_of_ok stepped]
      exact ih (recorded.step stepped)

section joining

variable {other : TransformSet} {front back others : List TransformerLine}

theorem Records.expand (recorded : after.Records (front ++ other.allLines))
    (part : other.Records back) : after.Records (front ++ back) where
  known := by
    intro target
    have same := (other.records_allLines.known target).symm.trans (part.known target)
    rw [recorded.known target]
    simp only [mem_append, or_and_right, exists_or] at same ⊢
    rw [same]
  combined := by
    intro target transform found
    have combined := (recorded.combined target transform found).congr fun _ => mem_append
    exact (combined.exchange (other.records_allLines.current target) (part.current target)).congr
      fun _ => mem_append.symm

theorem Conflicting.expand (conflicting : Conflicting (front ++ other.allLines))
    (part : other.Records back) : Conflicting (front ++ back) := by
  have trace {target : AccessTarget} {transform : AccessTransform} {change : FinalChange}
      (listed : ⟨target, transform⟩ ∈ front ++ other.allLines) (made : transform.finalChange = change)
      (proper : change ≠ .keep) :
      ∃ detail, ⟨target, detail⟩ ∈ front ++ back ∧ detail.finalChange = change := by
    rcases mem_append.mp listed with listed | line
    · exact ⟨transform, mem_append_left _ listed, made⟩
    · have changes := (part.combined target transform (mem_allLines.mp line)).changes change proper
      obtain ⟨detail, told, same⟩ := changes.mp made
      exact ⟨detail, mem_append_right _ told, same⟩
  obtain ⟨target, first, second, firstListed, secondListed, removes, adds⟩ := conflicting
  obtain ⟨remover, removerTold, removed⟩ := trace firstListed removes (by decide)
  obtain ⟨adder, adderTold, added⟩ := trace secondListed adds (by decide)
  exact ⟨target, remover, adder, removerTold, adderTold, removed, added⟩

theorem Records.merge (left : set.Records front) (right : other.Records back) :
    (∃ after, (merge other).result set = (.ok (), after) ∧ after.Records (front ++ back)) ∨
      ((∃ failure after, (merge other).result set = (.error failure, after)) ∧
        Conflicting (front ++ back)) := by
  rcases left.run other.allLines with ⟨after, joined, recorded⟩ | ⟨refused, conflicting⟩
  · exact .inl ⟨after, joined, recorded.expand right⟩
  · exact .inr ⟨refused, conflicting.expand right⟩

theorem build_mergeLines (lines : List TransformerLine) :
    (∃ set, build (mergeLines lines) = .ok set ∧ set.Records lines) ∨
      ((∃ failure, build (mergeLines lines) = .error failure) ∧ Conflicting lines) := by
  rcases empty_records.run lines with ⟨set, run, recorded⟩ | ⟨⟨failure, after, run⟩, conflicting⟩
  · exact .inl ⟨set, by rw [EditM.build_eq, run], recorded⟩
  · exact .inr ⟨⟨failure, by rw [EditM.build_eq, run]⟩, conflicting⟩

theorem records_of_build (built : build (mergeLines lines) = .ok set) : set.Records lines := by
  rcases build_mergeLines lines with ⟨other, again, recorded⟩ | ⟨⟨failure, refused⟩, -⟩
  · rw [built] at again
    exact Except.ok.inj again ▸ recorded
  · rw [built] at refused
    contradiction

theorem build_of_not_conflicting (calm : ¬ Conflicting lines) :
    ∃ set, build (mergeLines lines) = .ok set ∧ set.Records lines :=
  (build_mergeLines lines).resolve_right fun ⟨_, conflicting⟩ => calm conflicting

def lineOf (widening : Widening) : TransformerLine := ⟨widening.target, widening.transform⟩

theorem compile_eq (widenings : List Widening) : compile widenings = build (mergeLines (widenings.map lineOf)) := by
  change build (forM widenings widen) =
    build (forM (widenings.map lineOf) fun line => mergeTarget line.target line.transform)
  rw [forM_map]
  rfl

theorem not_conflicting_widenings (widenings : List Widening) : ¬ Conflicting (widenings.map lineOf) := by
  rintro ⟨target, first, second, -, listed, -, adds⟩
  obtain ⟨widening, -, line⟩ := mem_map.mp listed
  have change : widening.transform.finalChange = .add := by
    rw [show widening.transform = second from congrArg TransformerLine.transform line]
    exact adds
  rcases widening with ⟨_ | _⟩ | ⟨_ | _⟩ | ⟨_ | _⟩ <;> cases change

theorem build_congr (built : build (mergeLines lines) = .ok set) (others : List TransformerLine)
    (same : ∀ line, line ∈ lines ↔ line ∈ others) :
    ∃ other, build (mergeLines others) = .ok other ∧ set.same other := by
  have recorded : set.Records others := (records_of_build built).congr same
  obtain ⟨other, builtAgain, again⟩ := build_of_not_conflicting recorded.not_conflicting
  exact ⟨other, builtAgain, recorded.same again⟩

theorem build_append (built : build (mergeLines lines) = .ok set) (front back : List TransformerLine)
    (halves : lines.Perm (front ++ back)) :
    ∃ left right joined, build (mergeLines front) = .ok left ∧ build (mergeLines back) = .ok right ∧
      (merge right).result left = (.ok (), joined) ∧ set.same joined := by
  have recorded : set.Records (front ++ back) := (records_of_build built).congr fun line => halves.mem_iff
  have calm := recorded.not_conflicting
  obtain ⟨left, leftBuilt, leftRecorded⟩ := build_of_not_conflicting fun conflicting =>
    calm (conflicting.mono fun _ listed => mem_append_left back listed)
  obtain ⟨right, rightBuilt, rightRecorded⟩ := build_of_not_conflicting fun conflicting =>
    calm (conflicting.mono fun _ listed => mem_append_right front listed)
  obtain ⟨joined, run, joinedRecorded⟩ :=
    (leftRecorded.merge rightRecorded).resolve_right fun ⟨_, conflicting⟩ => calm conflicting
  exact ⟨left, right, joined, leftBuilt, rightBuilt, run, recorded.same joinedRecorded⟩

/-- Merging access transforms does not depend on order or grouping.

Merging lines fails if and only if one line removes the final modifier of a symbol and another one adds it.
Otherwise the set records the lines: each symbol has the widest visibility and all changes that were asked
for it. The lines in any other order give an equal set, and so do two parts of the lines that are merged
apart and then joined, in either order. Joining two sets fails if and only if their lines are in conflict.

A merge that is refused leaves the set as it was. Widenings are never refused, and what they are compiled to
depends neither on their order nor on repetitions. -/
theorem mergeLines_unordered (lines : List TransformerLine) :
    ((∃ failure, build (mergeLines lines) = .error failure) ↔ Conflicting lines) ∧
    (∀ set, build (mergeLines lines) = .ok set →
      set.Records lines ∧
      (∀ others, lines.Perm others → ∃ other, build (mergeLines others) = .ok other ∧ set.same other) ∧
      (∀ front back, lines = front ++ back → ∃ left right forwards backwards,
        build (mergeLines front) = .ok left ∧ build (mergeLines back) = .ok right ∧
        (merge right).result left = (.ok (), forwards) ∧ set.same forwards ∧
        (merge left).result right = (.ok (), backwards) ∧ set.same backwards)) ∧
    (∀ others set other, build (mergeLines lines) = .ok set → build (mergeLines others) = .ok other →
      ((∃ failure after, (merge other).result set = (.error failure, after)) ↔
        Conflicting (lines ++ others))) ∧
    (∀ set target transform failure after,
      (mergeTarget target transform).result set = (.error failure, after) → after = set) ∧
    (∀ widenings, ∃ set, compile widenings = .ok set ∧
      ∀ others, (∀ widening, widening ∈ widenings ↔ widening ∈ others) →
        ∃ other, compile others = .ok other ∧ set.same other) := by
  refine ⟨?_, fun set built => ⟨records_of_build built, fun others permuted => ?_, fun front back halves => ?_⟩,
    fun others set other built otherBuilt => ?_, fun set target transform failure after refused => ?_,
    fun widenings => ?_⟩
  · constructor
    · rintro ⟨failure, refused⟩
      by_contra calm
      obtain ⟨set, built, -⟩ := build_of_not_conflicting calm
      rw [refused] at built
      contradiction
    · intro conflicting
      refine ((build_mergeLines lines).resolve_left ?_).1
      rintro ⟨set, -, recorded⟩
      exact recorded.not_conflicting conflicting
  · exact build_congr built others fun line => permuted.mem_iff
  · obtain ⟨left, right, forwards, leftBuilt, rightBuilt, forth, same⟩ :=
      build_append built front back (.of_eq halves)
    obtain ⟨_, _, backwards, rightAgain, leftAgain, back, sameBack⟩ :=
      build_append built back front (halves ▸ List.perm_append_comm)
    obtain rfl := Except.ok.inj (leftBuilt.symm.trans leftAgain)
    obtain rfl := Except.ok.inj (rightBuilt.symm.trans rightAgain)
    exact ⟨_, _, forwards, backwards, leftBuilt, rightBuilt, forth, same, back, sameBack⟩
  · rcases (records_of_build built).merge (records_of_build otherBuilt) with
      ⟨joined, run, recorded⟩ | ⟨refused, conflicting⟩
    · simp [run, recorded.not_conflicting]
    · exact iff_of_true refused conflicting
  · exact (mergeTarget_refused refused).1
  · obtain ⟨set, built, -⟩ := build_of_not_conflicting (not_conflicting_widenings widenings)
    refine ⟨set, (compile_eq widenings).trans built, fun others same => ?_⟩
    have lines : ∀ line, line ∈ widenings.map lineOf ↔ line ∈ others.map lineOf := by
      simp only [List.mem_map, same, implies_true]
    obtain ⟨other, otherBuilt, equal⟩ := build_congr built (others.map lineOf) lines
    exact ⟨other, (compile_eq others).trans otherBuilt, equal⟩

/-- A class that is made public, and a method that is opened to subclasses first and to everyone then. -/
def openedMethod : List TransformerLine :=
  [⟨.ofMethod "a/Foo" "run" "()V", ⟨some .isProtected, .remove⟩⟩, ⟨.ofClass "a/Foo", .publish⟩,
    ⟨.ofMethod "a/Foo" "run" "()V", .publish⟩]

theorem mergeLines_unordered_openedMethod :
    (∃ set other, build (mergeLines openedMethod) = .ok set ∧
      set.find? (.ofMethod "a/Foo" "run" "()V") = some .publishOpen ∧
      build (mergeLines openedMethod.reverse) = .ok other ∧ set.same other) ∧
    ∃ failure, build (mergeLines (⟨.ofMethod "a/Foo" "run" "()V", ⟨none, .add⟩⟩ :: openedMethod)) =
      .error failure := by
  have calm := (mergeLines_unordered openedMethod).2.1 _ rfl
  obtain ⟨other, reversed, same⟩ := calm.2.1 _ (List.reverse_perm openedMethod).symm
  refine ⟨⟨_, other, rfl, by decide, reversed, same⟩, ?_⟩
  exact (mergeLines_unordered _).1.mpr ⟨.ofMethod "a/Foo" "run" "()V", ⟨some .isProtected, .remove⟩,
    ⟨none, .add⟩, by decide, by decide, rfl, rfl⟩

end joining

end TransformSet

end JarRemap
