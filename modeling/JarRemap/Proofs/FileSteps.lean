import JarRemap.Proofs.FileWork
import JarRemap.Proofs.OutputPaths

/-!
# Steps that write and delete outputs

A run changes files in two ways only. It deletes a file at one of some paths; or it makes a directory where nothing
is, works on a temporary file, and moves a complete archive to its output path. `Removes` and `Builds` say so step
by step, and all that follows about trees and histories is read off these two.
-/
namespace JarRemap

open FileTree List JarRemap.Path FileStep

variable {path : String} {others paths : Set String}

open Session

namespace Path

variable {paths : Set String}

/-- The paths together with those of the temporary files that are written before them. -/
def withTemporary (paths : Set String) : Set String := paths ∪ temporary '' paths

theorem withTemporary_mono (more : paths ⊆ others) : withTemporary paths ⊆ withTemporary others :=
  Set.union_subset_union more (Set.image_mono more)

theorem mem_withTemporary (listed : path ∈ paths) : path ∈ withTemporary paths := .inl listed

theorem temporary_mem_withTemporary (listed : path ∈ paths) :
    temporary path ∈ withTemporary paths := .inr ⟨path, listed, rfl⟩

end Path

namespace FileStep

/-- The places at which the step changes something. -/
def places : FileStep → List Place
  | makeDirectory place | create place | write place _ | extend place _ | finish place | delete place => [place]
  | rename source target => [source, target]

inductive Removes (paths : Set String) (tree : FileTree) : FileStep → Prop
  | delete {path : String} {content : FileContent} (listed : path ∈ paths)
      (present : tree.node? (tree.spot path) = some (.file content)) :
      Removes paths tree (.delete (tree.spot path))

/-- Goes on with the temporary file of one of the outputs, or completes the output with it. -/
inductive Builds (outputs : Set String) (tree : FileTree) : FileStep → Prop
  | makeDirectory {place : Place} (free : tree.node? place = none) :
      Builds outputs tree (.makeDirectory place)
  | create {output : String} (listed : output ∈ outputs)
      (free : tree.node? (tree.spot (temporary output)) ≠ some .directory) :
      Builds outputs tree (.create (tree.spot (temporary output)))
  | extend {output : String} {content : FileContent} {entry : ArchiveEntry} (listed : output ∈ outputs)
      (begun : tree.node? (tree.spot (temporary output)) = some (.file content)) :
      Builds outputs tree (.extend (tree.spot (temporary output)) entry)
  | finish {output : String} {content : FileContent} (listed : output ∈ outputs)
      (begun : tree.node? (tree.spot (temporary output)) = some (.file content)) :
      Builds outputs tree (.finish (tree.spot (temporary output)))
  | move {output : String} {entries : List ArchiveEntry} (listed : output ∈ outputs)
      (complete : tree.node? (tree.spot (temporary output)) = some (.file (.archive entries)))
      (free : tree.node? (tree.spot output) ≠ some .directory) :
      Builds outputs tree (.rename (tree.spot (temporary output)) (tree.spot output))
  | discard {output : String} {content : FileContent} (listed : output ∈ outputs)
      (present : tree.node? (tree.spot (temporary output)) = some (.file content)) :
      Builds outputs tree (.delete (tree.spot (temporary output)))

/-- Goes on with the temporary file of one of the outputs, and moves nothing to its place. -/
structure Drafts (outputs : Set String) (tree : FileTree) (step : FileStep) : Prop where
  builds : Builds outputs tree step
  unmoved : ∀ source target, step ≠ .rename source target

theorem Removes.mono (more : paths ⊆ others) (tree : FileTree) (step : FileStep)
    (removes : Removes paths tree step) : Removes others tree step := by
  cases removes with
  | delete listed present => exact .delete (more listed) present

theorem Builds.mono {outputs : Set String} (more : outputs ⊆ others) (tree : FileTree) (step : FileStep)
    (builds : Builds outputs tree step) : Builds others tree step := by
  cases builds with
  | makeDirectory free => exact .makeDirectory free
  | create listed free => exact .create (more listed) free
  | extend listed begun => exact .extend (more listed) begun
  | finish listed begun => exact .finish (more listed) begun
  | move listed complete free => exact .move (more listed) complete free
  | discard listed present => exact .discard (more listed) present

section apply

variable {tree : FileTree} {place other : Place} {content : FileContent}

@[simp] theorem workingPlace_apply (step : FileStep) (tree : FileTree) :
    (step.apply tree).workingPlace = tree.workingPlace := by
  cases step with
  | rename source target | extend place entry | finish place =>
    rw [apply]
    split <;> rfl
  | _ => rfl

theorem node?_apply_other {step : FileStep} (other : place ∉ step.places) :
    (step.apply tree).node? place = tree.node? place := by
  have put : ∀ named node, place ≠ named → (tree.put named node).node? place = tree.node? place := by
    intro named node different
    rw [node?_put, if_neg fun same => different same.1.symm]
  cases step with
  | makeDirectory named | create named | write named _ =>
    exact put named _ (ne_of_not_mem_cons other)
  | extend named entry | finish named =>
    rw [apply]
    split <;> exact put named _ (ne_of_not_mem_cons other)
  | delete named =>
    have different : place ≠ named := ne_of_not_mem_cons other
    rw [apply, node?_remove, if_neg fun same => different same.1.symm]
  | rename source target =>
    have differs : place ≠ source := ne_of_not_mem_cons other
    have different : place ≠ target := ne_of_not_mem_cons (not_mem_of_not_mem_cons other)
    rw [apply]
    split
    · rw [node?_put, if_neg fun same => different same.1.symm, node?_remove, if_neg fun same => differs same.1.symm]
    · rfl

theorem node?_delete (present : tree.node? place = some (.file content)) :
    ((delete place).apply tree).node? place = none := by
  have notRoot : place ≠ [] := ne_root_of_file present
  simp [apply, node?_remove, notRoot]

theorem node?_create (free : tree.node? place ≠ some .directory) :
    ((create place).apply tree).node? place = some (.file (.bytes [])) := by
  simp [apply, node?_put, ne_root free]

theorem exists_node?_extend (begun : tree.node? place = some (.file content)) (entry : ArchiveEntry) :
    ∃ entries, ((extend place entry).apply tree).node? place = some (.file (.unfinished entries)) := by
  have notRoot : place ≠ [] := ne_root_of_file begun
  rw [apply]
  split <;> exact ⟨_, by simp [node?_put, notRoot]; rfl⟩

theorem exists_node?_finish (begun : tree.node? place = some (.file content)) :
    ∃ entries, ((finish place).apply tree).node? place = some (.file (.archive entries)) := by
  have notRoot : place ≠ [] := ne_root_of_file begun
  rw [apply]
  split <;> exact ⟨_, by simp [node?_put, notRoot]; rfl⟩

theorem node?_rename {source target : Place} (present : tree.node? source = some (.file content))
    (free : tree.node? target ≠ some .directory) :
    ((rename source target).apply tree).node? target = some (.file content) ∧
      (source ≠ target → ((rename source target).apply tree).node? source = none) := by
  have sourceNotRoot : source ≠ [] := ne_root_of_file present
  have targetNotRoot : target ≠ [] := ne_root free
  rw [apply, present]
  constructor
  · simp [node?_put, targetNotRoot]
  · intro different
    simp [node?_put, node?_remove, sourceNotRoot, Ne.symm different]

end apply

end FileStep

namespace FileTree

variable {tree : FileTree} {place : Place}

/-- The tree after some steps, the first of which is taken first. -/
def replay (tree : FileTree) (steps : List FileStep) : FileTree :=
  steps.foldl (fun tree step => step.apply tree) tree

@[simp] theorem replay_append (tree : FileTree) (first second : List FileStep) :
    tree.replay (first ++ second) = (tree.replay first).replay second := foldl_append

@[simp] theorem replay_singleton (tree : FileTree) (step : FileStep) : tree.replay [step] = step.apply tree := rfl

@[simp] theorem workingPlace_replay (tree : FileTree) (steps : List FileStep) :
    (tree.replay steps).workingPlace = tree.workingPlace := by
  induction steps generalizing tree with
  | nil => rfl
  | cons step steps ih =>
    change ((step.apply tree).replay steps).workingPlace = _
    rw [ih, workingPlace_apply]

theorem node?_replay_of_untouched {steps : List FileStep} (untouched : ∀ step ∈ steps, place ∉ step.places) :
    (tree.replay steps).node? place = tree.node? place := by
  induction steps generalizing tree with
  | nil => rfl
  | cons step steps ih =>
    obtain ⟨here, later⟩ := forall_mem_cons.mp untouched
    change ((step.apply tree).replay steps).node? place = _
    rw [ih later, node?_apply_other here]

theorem keeps_of_others {before after : FileTree}
    (working : after.workingPlace = before.workingPlace) (free : before.node? place ≠ some .directory)
    (others : ∀ other, other ≠ place → after.node? other = before.node? other) : Keeps {place} before after where
  working := working
  directories other standing := by
    have different : other ≠ place := by
      rintro rfl
      exact free standing
    rw [others other different, standing]
  files other outside content := by rw [others other outside]

end FileTree

namespace FileStep

variable {tree : FileTree} {step : FileStep} {outputs : Set String}

theorem Removes.loses (removes : Removes paths tree step) :
    Loses (tree.spot '' paths) tree (step.apply tree) := by
  cases removes with
  | @delete path content listed present =>
    refine ⟨rfl, fun place => ?_⟩
    by_cases same : place = tree.spot path
    · subst same
      exact .inr ⟨⟨path, listed, rfl⟩, ⟨content, present⟩, node?_delete present⟩
    · exact .inl (node?_apply_other (by simpa [places] using same))

theorem Drafts.keeps (drafts : Drafts outputs tree step) :
    Keeps (tree.spot '' (temporary '' outputs)) tree (step.apply tree) := by
  -- The only place that the step names is that of a temporary file.
  have single : ∀ {output}, output ∈ outputs → step.places = [tree.spot (temporary output)] →
      tree.node? (tree.spot (temporary output)) ≠ some .directory →
      Keeps (tree.spot '' (temporary '' outputs)) tree (step.apply tree) := by
    intro output listed only free
    have others := keeps_of_others (workingPlace_apply step tree) free fun other different =>
      node?_apply_other (by simpa [only] using different)
    exact others.mono (Set.singleton_subset_iff.mpr ⟨_, ⟨output, listed, rfl⟩, rfl⟩)
  cases drafts.builds with
  | @makeDirectory made free =>
    refine ⟨rfl, fun place standing => ?_, fun place other content => ?_⟩
    · have different : place ≠ made := by
        rintro rfl
        rw [free] at standing
        cases standing
      rw [node?_apply_other (by simpa [places] using different), standing]
    · by_cases same : made = place
      · subst same
        have notRoot : made ≠ [] := ne_root_of_none free
        simp [apply, node?_put, notRoot, free]
      · rw [node?_apply_other (by simpa [places] using Ne.symm same)]
  | create listed free => exact single listed rfl free
  | extend listed begun | finish listed begun => exact single listed rfl (by simp [begun])
  | discard listed present => exact single listed rfl (by simp [present])
  | move => exact absurd rfl (drafts.unmoved _ _)

/-- A step that builds outputs keeps all directories, and all files but outputs and temporary ones. -/
theorem Builds.keeps (builds : Builds outputs tree step) :
    Keeps (tree.spot '' withTemporary outputs) tree (step.apply tree) := by
  have drafting : (∀ source target, step ≠ .rename source target) →
      Keeps (tree.spot '' withTemporary outputs) tree (step.apply tree) :=
    fun unmoved => (Drafts.mk builds unmoved).keeps.mono (Set.image_mono Set.subset_union_right)
  cases builds with
  | makeDirectory | create | extend | finish | discard => exact drafting (by simp)
  | @move output entries listed complete free =>
    have drafted : tree.spot (temporary output) ∈ tree.spot '' withTemporary outputs :=
      ⟨_, temporary_mem_withTemporary listed, rfl⟩
    have placed : tree.spot output ∈ tree.spot '' withTemporary outputs := ⟨_, mem_withTemporary listed, rfl⟩
    refine ⟨workingPlace_apply _ tree, fun place standing => ?_, fun place other content => ?_⟩
    · have fromSource : place ≠ tree.spot (temporary output) := by
        rintro rfl
        simp [complete] at standing
      have fromTarget : place ≠ tree.spot output := by
        rintro rfl
        exact free standing
      rw [node?_apply_other (by simp [places, fromSource, fromTarget]), standing]
    · have fromSource : place ≠ tree.spot (temporary output) := by
        rintro rfl
        exact other drafted
      have fromTarget : place ≠ tree.spot output := by
        rintro rfl
        exact other placed
      rw [node?_apply_other (by simp [places, fromSource, fromTarget])]

/-- What a building step does at the place of an archive: nothing, or it makes a directory where nothing is, or it
moves a complete archive there. -/
theorem Builds.cases_at (jars : ∀ output ∈ outputs, IsJar output) (jar : IsJar path)
    (builds : Builds outputs tree step) : tree.spot path ∉ step.places ∨
      (step = .makeDirectory (tree.spot path) ∧ tree.node? (tree.spot path) = none) ∨
      ∃ output ∈ outputs, ∃ entries source, tree.spot path = tree.spot output ∧ step = .rename source (tree.spot path) ∧
        (step.apply tree).node? (tree.spot path) = some (.file (.archive entries)) := by
  have apart : ∀ {output}, output ∈ outputs → tree.spot path ≠ tree.spot (temporary output) :=
    fun listed => tree.spot_ne_temporary jar (jars _ listed)
  cases builds with
  | @makeDirectory made free =>
    by_cases same : tree.spot path = made
    · exact .inr (.inl ⟨by rw [same], same ▸ free⟩)
    · exact .inl (by simpa [places] using same)
  | create listed _ | extend listed _ | finish listed _ | discard listed _ =>
    exact .inl (by simpa [places] using apart listed)
  | @move output entries listed complete free =>
    by_cases same : tree.spot path = tree.spot output
    · rw [same]
      exact .inr (.inr ⟨output, listed, entries, _, rfl, rfl, (node?_rename complete free).1⟩)
    · exact .inl (by simp [places, apart listed, same])

theorem Builds.isFile (jars : ∀ output ∈ outputs, IsJar output) (jar : IsJar path)
    (builds : Builds outputs tree step) (present : tree.isFile path = true) : (step.apply tree).isFile path = true := by
  have keeps := builds.keeps
  obtain ⟨led, content, standing⟩ := isFile_iff.mp present
  rw [isFile_iff, keeps.spot_eq]
  refine ⟨keeps.locate led, ?_⟩
  rcases builds.cases_at jars jar with other | ⟨_, free⟩ | ⟨_, _, entries, _, _, _, moved⟩
  · exact ⟨content, by rw [node?_apply_other other, standing]⟩
  · rw [free] at standing
    cases standing
  · exact ⟨_, moved⟩

end FileStep

namespace Session

namespace Trail

variable {before after : Session} {paths outputs : Set String}

theorem loses (trail : Trail (Removes paths) before after) :
    Loses (before.tree.spot '' paths) before.tree after.tree := by
  refine trail.relates (fun first second => Loses (first.spot '' paths) first second)
    (fun _ => .refl _) (fun {first second third} start finish => ?_) fun _ _ removes => removes.loses
  have spots : second.spot = first.spot := funext start.spot_eq
  exact start.trans (spots ▸ finish)

theorem keeps_of_builds (trail : Trail (Builds outputs) before after) :
    Keeps (before.tree.spot '' withTemporary outputs) before.tree after.tree := by
  refine trail.relates
    (fun first second => Keeps (first.spot '' withTemporary outputs) first second)
    (fun _ => .refl _) (fun {first second third} start finish => ?_) fun _ _ builds => builds.keeps
  have spots : second.spot = first.spot := funext start.spot_eq
  exact start.trans (spots ▸ finish)

theorem keeps_of_drafts (trail : Trail (Drafts outputs) before after) :
    Keeps (before.tree.spot '' (temporary '' outputs)) before.tree after.tree := by
  refine trail.relates
    (fun first second => Keeps (first.spot '' (temporary '' outputs)) first second)
    (fun _ => .refl _) (fun {first second third} start finish => ?_) fun _ _ drafts => drafts.keeps
  have spots : second.spot = first.spot := funext start.spot_eq
  exact start.trans (spots ▸ finish)

theorem isFile_of_builds (trail : Trail (Builds outputs) before after)
    (jars : ∀ output ∈ outputs, IsJar output) (jar : IsJar path)
    (present : before.tree.isFile path = true) : after.tree.isFile path = true :=
  trail.keeps (fun session => session.tree.isFile path = true) present
    fun _ _ standing builds => builds.isFile jars jar standing

end Trail

end Session

end JarRemap
