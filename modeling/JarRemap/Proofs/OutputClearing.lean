import JarRemap.Proofs.FileOperations

/-!
# How outputs are checked and cleared

The outputs of a role are found fresh as they stand, or they are deleted with the temporary files beside
them. If that cannot be done, an output is missing in the end, so that the role is not found fresh the next time
either. Clearing after a failure never fails itself, and leaves no file that it could see.
-/
namespace JarRemap

open FileM FileStep JarRemap.Path Removes List

variable {tree : FileTree} {path : String}

open Session

theorem Session.Trail.isFile_eq_false {before after : Session} {paths : Set String}
    (trail : Trail (Removes paths) before after) (absent : before.tree.isFile path = false) :
    after.tree.isFile path = false := by
  rw [Bool.eq_false_iff] at absent ⊢
  intro present
  exact absent (trail.loses.isFile_before present)

/-- The path can be followed and leads to no directory, so that no file there would be left. -/
structure FileTree.Deletable (tree : FileTree) (path : String) : Prop where
  led : tree.locate path = .ok (tree.spot path)
  free : tree.node? (tree.spot path) ≠ some .directory

theorem FileTree.Deletable.loses {later : FileTree} {touched : Set Place}
    (deletable : tree.Deletable path) (loses : FileTree.Loses touched tree later) : later.Deletable path where
  led := by
    rw [loses.spot_eq]
    exact loses.keeps.locate deletable.led
  free := by
    rw [loses.spot_eq]
    intro directory
    exact deletable.free (loses.node?_before directory)

namespace OutputCache

variable {cache : OutputCache} {role path : String} {targets : List String} {before after : Session}
  {outcome : Outcome Unit} {output : OutputArchive} {outputs : List OutputArchive}

def paths (cache : OutputCache) (role : String) (targets : List String) : Set String :=
  { path | ∃ output ∈ cache.outputs role targets, output.path = path }

theorem path_mem_paths (listed : output ∈ cache.outputs role targets) :
    output.path ∈ cache.paths role targets := ⟨output, listed, rfl⟩

theorem isJar_of_mem_paths (listed : path ∈ cache.paths role targets) : IsJar path := by
  obtain ⟨output, listed, rfl⟩ := listed
  exact isJar_of_mem listed

def Present (cache : OutputCache) (role : String) (targets : List String) (tree : FileTree) : Prop :=
  ∀ output ∈ cache.outputs role targets, tree.isFile output.path = true

/-- Neither an output of the role nor a temporary file for one is there. -/
def Cleared (cache : OutputCache) (role : String) (targets : List String) (tree : FileTree) : Prop :=
  ∀ output ∈ cache.outputs role targets,
    tree.isFile output.path = false ∧ tree.isFile (temporary output.path) = false

theorem present_iff : cache.Present role targets tree ↔
      (cache.outputs role targets).all (fun output => tree.isFile output.path) = true := by
  simp [Present]

instance (cache : OutputCache) (role : String) (targets : List String) (tree : FileTree) :
    Decidable (cache.Present role targets tree) := decidable_of_iff _ present_iff.symm

instance (cache : OutputCache) (role : String) (targets : List String) (tree : FileTree) :
    Decidable (cache.Cleared role targets tree) := by
  unfold Cleared
  infer_instance

theorem not_present :
    ¬ cache.Present role targets tree ↔ ∃ output ∈ cache.outputs role targets, tree.isFile output.path = false := by
  simp [Present]

theorem Cleared.trail {paths : Set String} (cleared : cache.Cleared role targets before.tree)
    (trail : Trail (Removes paths) before after) : cache.Cleared role targets after.tree :=
  fun output listed => ⟨trail.isFile_eq_false (cleared output listed).1,
    trail.isFile_eq_false (cleared output listed).2⟩

theorem takes_discard (path : String) : Takes (Removes {path}) (discard path) :=
  (takes_deleteIfPresent path).within _

theorem isFile_of_ends_discard (ended : (discard path).Ends before outcome after) : after.tree.isFile path = false := by
  obtain ⟨_, ended, _⟩ := ends_within.mp ended
  exact isFile_of_ends_deleteIfPresent ended

theorem exists_ends_discard (deletable : before.tree.Deletable path) :
    ∃ after, (discard path).Ends before (.ok ()) after := by
  obtain ⟨after, ended⟩ := exists_ends_deleteIfPresent deletable.led deletable.free
  exact ⟨after, ends_within_ok.mpr ended⟩

theorem takes_tryDiscard (path : String) : Takes (Removes {path}) (tryDiscard path) :=
  (takes_discard path).tryCatch fun _ => works_pure _

theorem ends_tryDiscard (ended : (tryDiscard path).Ends before outcome after) :
    outcome = .ok () ∧ after.tree.isFile path = false := by
  rcases ends_tryCatch.mp ended with ⟨_, given, rfl⟩ | ⟨_, middle, stopped, handled⟩
  · exact ⟨rfl, isFile_of_ends_discard given⟩
  · obtain ⟨rfl, rfl⟩ := ends_pure.mp handled
    exact ⟨rfl, isFile_of_ends_discard stopped⟩

/-- Deletes an output and the temporary file beside it. -/
def discardOutput (output : OutputArchive) : FileM Unit := do
  discard output.path
  discard (temporary output.path)

theorem takes_discardOutput (output : OutputArchive) :
    Takes (Removes (withTemporary {output.path})) (discardOutput output) := by
  refine Works.bind ?_ fun _ => ?_
  · exact (takes_discard _).mono (mono (Set.singleton_subset_iff.mpr (mem_withTemporary rfl)))
  · exact (takes_discard _).mono (mono
      (Set.singleton_subset_iff.mpr (temporary_mem_withTemporary rfl)))

theorem ends_discardOutput (ended : (discardOutput output).Ends before outcome after) :
    after.tree.isFile output.path = false ∧ (outcome = .ok () → after.tree.isFile (temporary output.path) = false) := by
  rcases ends_bind.mp ended with ⟨_, stopped, rfl⟩ | ⟨_, middle, first, second⟩
  · exact ⟨isFile_of_ends_discard stopped, fun done => by cases done⟩
  · exact ⟨((takes_discard _).trail second).isFile_eq_false (isFile_of_ends_discard first),
      fun _ => isFile_of_ends_discard second⟩

/-- Deleting outputs one after the other either deletes them all or leaves one of them missing. -/
theorem ends_forM_discardOutput (ended : (outputs.forM discardOutput).Ends before outcome after) :
    (outcome = .ok () ∧ ∀ output ∈ outputs,
      after.tree.isFile output.path = false ∧ after.tree.isFile (temporary output.path) = false) ∨
    ((∃ failure, outcome = .error failure) ∧ ∃ output ∈ outputs, after.tree.isFile output.path = false) := by
  induction outputs generalizing before with
  | nil =>
    obtain ⟨rfl, rfl⟩ := ends_pure.mp ended
    exact .inl ⟨rfl, fun _ listed => by cases listed⟩
  | cons output outputs ih =>
    rcases ends_bind.mp ended with ⟨failure, stopped, rfl⟩ | ⟨_, middle, first, rest⟩
    · exact .inr ⟨⟨failure, rfl⟩, output, mem_cons_self, (ends_discardOutput stopped).1⟩
    · have later : Trail (Removes Set.univ) middle after :=
        Takes.trail (works_forM fun other _ => (takes_discardOutput other).mono
          (mono (Set.subset_univ _))) rest
      obtain ⟨gone, goneToo⟩ := ends_discardOutput first
      rcases ih rest with ⟨rfl, others⟩ | ⟨failed, other, listed, missing⟩
      · refine .inl ⟨rfl, forall_mem_cons.mpr ⟨?_, others⟩⟩
        exact ⟨later.isFile_eq_false gone, later.isFile_eq_false (goneToo rfl)⟩
      · exact .inr ⟨failed, other, mem_cons_of_mem _ listed, missing⟩

/-- The output and the temporary file beside it can be deleted. -/
structure Discardable (tree : FileTree) (output : OutputArchive) : Prop where
  final : tree.Deletable output.path
  draft : tree.Deletable (temporary output.path)

theorem Discardable.trail {paths : Set String} (discardable : Discardable before.tree output)
    (trail : Trail (Removes paths) before after) : Discardable after.tree output :=
  ⟨discardable.final.loses trail.loses, discardable.draft.loses trail.loses⟩

theorem exists_ends_forM_discardOutput (discardable : ∀ output ∈ outputs, Discardable before.tree output) :
    ∃ after, (outputs.forM discardOutput).Ends before (.ok ()) after := by
  induction outputs generalizing before with
  | nil => exact ⟨before, ends_pure.mpr ⟨rfl, rfl⟩⟩
  | cons output outputs ih =>
    obtain ⟨here, others⟩ := forall_mem_cons.mp discardable
    obtain ⟨between, final⟩ := exists_ends_discard here.final
    obtain ⟨middle, draft⟩ := exists_ends_discard (here.trail ((takes_discard _).trail final)).draft
    have first : (discardOutput output).Ends before (.ok ()) middle := ends_bind_ok.mpr ⟨(), between, final, draft⟩
    obtain ⟨after, rest⟩ := ih fun other listed =>
      (others other listed).trail ((takes_discardOutput output).trail first)
    exact ⟨after, ends_bind_ok.mpr ⟨(), middle, first, rest⟩⟩

theorem check_eq (role : String) (targets : List String) (rebuild : Bool) : cache.check role targets rebuild = do
      let tree ← FileM.tree
      if (cache.outputs role targets).all (fun output => tree.isFile output.path) && !rebuild then
        return .fresh
      else
        (cache.outputs role targets).forM discardOutput
        return .stale := rfl

theorem takes_check (role : String) (targets : List String) (rebuild : Bool) :
    Takes (Removes (withTemporary (cache.paths role targets))) (cache.check role targets rebuild) := by
  rw [check_eq]
  refine works_tree.bind fun tree => ?_
  split
  · exact works_pure _
  · refine (works_forM fun output listed => ?_).bind fun _ => works_pure _
    refine (takes_discardOutput output).mono (mono (withTemporary_mono ?_))
    exact Set.singleton_subset_iff.mpr (path_mem_paths listed)

/-- What a check can come to. Outputs are fresh only if all of them are there and nothing asks for new ones,
and stale outputs are gone. After a check that failed, an output is missing. -/
theorem ends_check {rebuild : Bool} {outcome : Outcome CacheDecision}
    (ended : (cache.check role targets rebuild).Ends before outcome after) :
    (outcome = .ok .fresh ∧ after = before ∧ cache.Present role targets before.tree ∧ rebuild = false) ∨
    (¬ (cache.Present role targets before.tree ∧ rebuild = false) ∧
      ((outcome = .ok .stale ∧ cache.Cleared role targets after.tree) ∨
        ((∃ failure, outcome = .error failure) ∧ ¬ cache.Present role targets after.tree))) := by
  rw [check_eq, ends_tree_bind] at ended
  split at ended
  case isTrue upToDate =>
    obtain ⟨rfl, rfl⟩ := ends_pure.mp ended
    rw [Bool.and_eq_true, ← present_iff, Bool.not_eq_true'] at upToDate
    exact .inl ⟨rfl, rfl, upToDate⟩
  case isFalse outdated =>
    rw [Bool.and_eq_true, ← present_iff, Bool.not_eq_true'] at outdated
    refine .inr ⟨outdated, ?_⟩
    rcases ends_bind.mp ended with ⟨failure, stopped, rfl⟩ | ⟨_, middle, cleared, finished⟩
    · rcases ends_forM_discardOutput stopped with ⟨done, _⟩ | ⟨_, missing⟩
      · cases done
      · exact .inr ⟨⟨failure, rfl⟩, not_present.mpr missing⟩
    · obtain ⟨rfl, rfl⟩ := ends_pure.mp finished
      rcases ends_forM_discardOutput cleared with ⟨_, gone⟩ | ⟨⟨_, failed⟩, _⟩
      · exact .inl ⟨rfl, gone⟩
      · cases failed

theorem ends_check_fresh (present : cache.Present role targets before.tree) :
    (cache.check role targets false).Ends before (.ok .fresh) before := by
  rw [check_eq, ends_tree_bind, if_pos (by rw [present_iff.mp present]; rfl)]
  exact ends_pure.mpr ⟨rfl, rfl⟩

theorem exists_ends_check (discardable : ∀ output ∈ cache.outputs role targets, Discardable before.tree output)
    (rebuild : Bool) : ∃ decision after, (cache.check role targets rebuild).Ends before (.ok decision) after := by
  rw [check_eq]
  simp only [ends_tree_bind]
  split
  · exact ⟨.fresh, before, ends_pure.mpr ⟨rfl, rfl⟩⟩
  · obtain ⟨after, cleared⟩ := exists_ends_forM_discardOutput discardable
    exact ⟨.stale, after, ends_bind_ok.mpr ⟨(), after, cleared, ends_pure.mpr ⟨rfl, rfl⟩⟩⟩

theorem takes_invalidate (role : String) (targets : List String) :
    Takes (Removes (withTemporary (cache.paths role targets))) (cache.invalidate role targets) := by
  refine works_forM fun output listed => Works.bind ?_ fun _ => ?_
  · exact (takes_tryDiscard _).mono (mono
      (Set.singleton_subset_iff.mpr (temporary_mem_withTemporary (path_mem_paths listed))))
  · exact (takes_tryDiscard _).mono (mono
      (Set.singleton_subset_iff.mpr (mem_withTemporary (path_mem_paths listed))))

theorem ends_invalidate (ended : (cache.invalidate role targets).Ends before outcome after) :
    outcome = .ok () ∧ cache.Cleared role targets after.tree := by
  rw [invalidate] at ended
  unfold Cleared
  generalize cache.outputs role targets = outputs at ended ⊢
  induction outputs generalizing before with
  | nil => exact ⟨(ends_pure.mp ended).1, fun _ listed => by cases listed⟩
  | cons output outputs ih =>
    rcases ends_bind.mp ended with ⟨_, stopped, _⟩ | ⟨_, middle, first, rest⟩
    · rcases ends_bind.mp stopped with ⟨_, stopped, _⟩ | ⟨_, _, _, stopped⟩
      · cases (ends_tryDiscard stopped).1
      · cases (ends_tryDiscard stopped).1
    · rcases ends_bind.mp first with ⟨_, _, stopped⟩ | ⟨_, between, draft, final⟩
      · cases stopped
      have later : Trail (Removes Set.univ) middle after := by
        refine Takes.trail (works_forM fun _ _ => Works.bind ?_ fun _ => ?_) rest
        · exact (takes_tryDiscard _).mono (mono (Set.subset_univ _))
        · exact (takes_tryDiscard _).mono (mono (Set.subset_univ _))
      obtain ⟨done, others⟩ := ih rest
      refine ⟨done, forall_mem_cons.mpr ⟨⟨?_, ?_⟩, others⟩⟩
      · exact later.isFile_eq_false (ends_tryDiscard final).2
      · exact later.isFile_eq_false
          (((takes_tryDiscard _).trail final).isFile_eq_false (ends_tryDiscard draft).2)

end OutputCache

end JarRemap
