import JarRemap.Proofs.OwnerLookups
import JarRemap.Proofs.RemappedArchives
import JarRemap.Proofs.WrittenArchives

/-!
# Inner classes in the archives that a run writes

A run reads the owners of inner classes from the primary archive and carries them on, so each archive is remapped
with the same owners. Inputs may change while a run goes on; `GivesDuring` tells what was read at some time during
the run.
-/
namespace JarRemap

open Session FileM FileTree InnerOwners List RemapEngine LoadedArchive

section reading

variable {α : Type} {work : FileM α} {tree : FileTree} {steps more : List FileStep} {value : α}

/-- The work gives the value in the tree as it is after some of the steps. -/
def FileM.GivesDuring (work : FileM α) (tree : FileTree) (steps : List FileStep) (value : α) : Prop :=
  ∃ done, done <+: steps ∧ (work.runOn (tree.replay done)).1 = .ok value

theorem FileM.GivesDuring.mono (gives : work.GivesDuring tree steps value) (longer : steps <+: more) :
    work.GivesDuring tree more value := by
  obtain ⟨done, taken, given⟩ := gives
  exact ⟨done, taken.trans longer, given⟩

theorem LoadedArchive.givesDuring_of_ends {role path : String} {loaded : LoadedArchive} {session : Session}
    (replayed : session.tree = tree.replay session.steps.reverse)
    (ended : (load role path).Ends session (.ok loaded) session) :
    (load role path).GivesDuring tree session.steps.reverse loaded := by
  have again : (load role path).Ends ⟨session.tree, []⟩ (.ok loaded) ⟨session.tree, []⟩ :=
    (repeats_load role (Set.mem_singleton path)).again (.refl session.tree) ended
  refine ⟨session.steps.reverse, prefix_rfl, ?_⟩
  rw [← replayed, runOn_of_ends again]

theorem Session.Trail.steps_extend {allowed : FileTree → FileStep → Prop} {before after : Session}
    (trail : Trail allowed before after) : before.steps.reverse <+: after.steps.reverse :=
  reverse_prefix.mpr (trail.keeps (fun session => before.steps <:+ session.steps) (suffix_refl _)
    fun _ step reached _ => reached.trans (suffix_cons step _))

end reading

namespace RemapJob

variable {job : RemapJob} {profile : Profile} {chain : NamespaceChain} {tree : FileTree}
  {steps more : List FileStep} {archive : InputArchive} {output : OutputArchive} {target : String}
  {entries : List ArchiveEntry} {progress next last : Progress} {before after session : Session}
  {loaded : LoadedArchive} {arrivals : List (Place × FileContent)} {targets : List String}

/-- The entries of an output are the classes of the archive with their new names, and others that are no classes.
The new names are those that follow from the mappings and from the inner classes that the primary archive declares. -/
def FollowsOwners (job : RemapJob) (profile : Profile) (chain : NamespaceChain) (tree : FileTree)
    (steps : List FileStep) (archive : InputArchive) (target : String) (entries : List ArchiveEntry) : Prop :=
  ∃ (loaded primary : LoadedArchive) (names : List String) (declared : List InnerClass) (mappings table : MappingTable)
    (renamed written : List ClassEntry) (others : List ArchiveEntry),
    (load archive.role archive.path).GivesDuring tree steps loaded ∧
    (load job.primary.role job.primary.path).GivesDuring tree steps primary ∧
    Declare primary.image.classes names declared ∧
    RemapEngine.mappingsFor chain profile target = .ok mappings ∧
    (∀ name, Follows names declared mappings name (table.className name)) ∧
    Forall₂ (ClassEntry.Renamed table) loaded.image.classes renamed ∧ written.Perm renamed ∧
    entries = written.map ArchiveWriter.classEntry ++ others ∧ ∀ entry ∈ others, entry.isClass = false

theorem FollowsOwners.mono (follows : job.FollowsOwners profile chain tree steps archive target entries)
    (longer : steps <+: more) : job.FollowsOwners profile chain tree more archive target entries := by
  obtain ⟨loaded, primary, names, declared, mappings, table, renamed, written, others, load, known, rest⟩ := follows
  exact ⟨loaded, primary, names, declared, mappings, table, renamed, written, others, load.mono longer,
    known.mono longer, rest⟩

/-- An output of an archive was moved to its place, and inner classes follow their owners in it, unless the target is
the last namespace but one. -/
structure Arrives (job : RemapJob) (profile : Profile) (chain : NamespaceChain) (tree : FileTree)
    (steps : List FileStep) (hop : InputArchive × OutputArchive) (arrival : Place × FileContent) : Prop where
  place : arrival.1 = tree.spot hop.2.path
  content : ∃ entries, arrival.2 = .archive entries ∧
    (NamespaceChain.beforeLast? profile.namespaces ≠ some hop.2.target →
      job.FollowsOwners profile chain tree steps hop.1 hop.2.target entries)

theorem Arrives.mono {hop : InputArchive × OutputArchive} {arrival : Place × FileContent}
    (arrives : job.Arrives profile chain tree steps hop arrival) (longer : steps <+: more) :
    job.Arrives profile chain tree more hop arrival := by
  obtain ⟨entries, held, follows⟩ := arrives.content
  exact ⟨arrives.place, entries, held, fun fixed => (follows fixed).mono longer⟩

/-- What is carried from one archive to the next: the chain and the profile of the run, and owners that were read from
the primary archive, if there are any yet. -/
structure Carries (job : RemapJob) (profile : Profile) (chain : NamespaceChain) (tree : FileTree)
    (steps : List FileStep) (progress : Progress) : Prop where
  chain : progress.engine.chain = chain
  profile : progress.engine.profile = profile
  owners : ∀ known ∈ progress.owners, ∃ primary,
    (load job.primary.role job.primary.path).GivesDuring tree steps primary ∧
      InnerOwners.ofImage primary.image = .ok known

theorem Carries.mono (carries : job.Carries profile chain tree steps progress) (longer : steps <+: more) :
    job.Carries profile chain tree more progress := by
  refine ⟨carries.chain, carries.profile, fun known held => ?_⟩
  obtain ⟨primary, gives, owned⟩ := carries.owners known held
  exact ⟨primary, gives.mono longer, owned⟩

theorem Carries.of_ends_loadArchive (carries : job.Carries profile chain tree session.steps.reverse progress)
    (needed : .innerClasses ∈ profile.fixups) (replayed : session.tree = tree.replay session.steps.reverse)
    (ended : (job.loadArchive progress archive).Ends session (.ok (next, loaded)) session) :
    (load archive.role archive.path).GivesDuring tree session.steps.reverse loaded ∧
      job.Carries profile chain tree session.steps.reverse next ∧ next.owners.isSome = true := by
  obtain ⟨load, owned⟩ := ends_loadArchive_ok.mp ended
  refine ⟨givesDuring_of_ends replayed load, ?_⟩
  rw [withOwners, carries.profile, contains_iff_mem.mpr needed, Bool.true_and] at owned
  split at owned
  case isTrue =>
    obtain ⟨known, read, owned⟩ := (job.reads_ownersFrom archive loaded).ends_bind_ok owned
    obtain ⟨⟨⟩, _⟩ := ends_pure.mp owned
    obtain ⟨primary, loadPrimary, gathered⟩ := (ends_ownersFrom_ok load).mp read
    refine ⟨⟨carries.chain, carries.profile, fun _ held => ?_⟩, rfl⟩
    cases held
    exact ⟨primary, givesDuring_of_ends replayed loadPrimary, gathered⟩
  case isFalse present =>
    obtain ⟨⟨⟩, _⟩ := ends_pure.mp owned
    exact ⟨carries, Option.isSome_iff_ne_none.mpr (by simpa using present)⟩

section

variable (carries : job.Carries profile chain tree before.steps.reverse progress)
  (needed : .innerClasses ∈ profile.fixups) (present : progress.owners.isSome = true)
  (load : (load archive.role archive.path).GivesDuring tree before.steps.reverse loaded)
  (delivered : Delivered tree before arrivals)
include carries needed present load delivered

theorem Carries.arrives_of_remapOutput (jar : Path.IsJar output.path)
    (ended : (remapOutput archive loaded progress output).Ends before (.ok next) after) :
    job.Carries profile chain tree after.steps.reverse next ∧ next.owners.isSome = true ∧
      ∃ arrival, Delivered tree after (arrivals ++ [arrival]) ∧
        job.Arrives profile chain tree after.steps.reverse (archive, output) arrival := by
  have longer := ((takes_remapOutput archive loaded progress output).trail ended).steps_extend
  obtain ⟨engine, middle, remapped, settled⟩ := ends_bind_ok.mp ended
  obtain ⟨⟨⟩, rfl⟩ := ends_pure.mp settled
  have remapped := ends_within_ok.mp remapped
  obtain ⟨classpath, classes, others, given, standing, _, classless⟩ := classes_of_ends_remapTo remapped
  have wrote := delivered_of_ends_remapTo delivered jar remapped standing
  obtain ⟨_, _, _, _, _, _, _, rfl⟩ := ends_remapTo_ok.mp remapped
  have later := carries.mono longer
  refine ⟨⟨later.chain, later.profile, later.owners⟩, present, _, wrote, rfl, _, rfl, fun fixed => ?_⟩
  obtain ⟨known, held⟩ := Option.isSome_iff_exists.mp present
  obtain ⟨primary, gives, gathered⟩ := later.owners known held
  obtain ⟨names, declared, declare, knows⟩ := exists_knows_of_ofImage gathered
  obtain ⟨table, renamed, resolved, related, reordered, _⟩ := renamed_of_remapClasses given
  have inFixups : .innerClasses ∈ progress.engine.profile.fixupsFor output.target := by
    rw [carries.profile, Profile.fixupsFor, if_neg fixed]
    exact needed
  rw [held] at resolved
  obtain ⟨mappings, chained, follows⟩ := follows_of_tableFor knows inFixups resolved
  rw [carries.chain, carries.profile] at chained
  exact ⟨loaded, primary, names, declared, mappings, table, renamed, classes, others, load.mono longer, gives, declare,
    chained, follows, related, reordered, rfl, classless⟩

end

theorem Carries.arrives_of_foldlM_remapArchive {archives : List InputArchive}
    (carries : job.Carries profile chain tree before.steps.reverse progress)
    (needed : .innerClasses ∈ profile.fixups) (delivered : Delivered tree before [])
    (ended : (archives.foldlM (job.remapArchive targets) progress).Ends before (.ok last) after) :
    ∃ written, Delivered tree after written ∧
      Forall₂ (job.Arrives profile chain tree after.steps.reverse) (job.hops targets archives) written := by
  let Done (done : List (InputArchive × OutputArchive)) (session : Session) : Prop :=
    ∃ written, Delivered tree session written ∧
      Forall₂ (job.Arrives profile chain tree session.steps.reverse) done written
  refine (remapping_induction
    (fun done progress session => job.Carries profile chain tree session.steps.reverse progress ∧ Done done session)
    (fun archive loaded done progress session => job.Carries profile chain tree session.steps.reverse progress ∧
      (progress.owners.isSome = true ∧ (load archive.role archive.path).GivesDuring tree
        session.steps.reverse loaded) ∧ Done done session) ?_ ?_
    (fun within => ⟨within.1, within.2.2⟩) ⟨carries, [], delivered, .nil⟩ ended).2
  · rintro done progress session archive next loaded - ⟨carries, written, delivered, arrive⟩ load
    obtain ⟨gives, onward, present⟩ := carries.of_ends_loadArchive needed delivered.replayed load
    exact ⟨onward, ⟨present, gives⟩, written, delivered, arrive⟩
  · rintro done progress before archive loaded output next after - listed
      ⟨carries, ⟨present, load⟩, written, delivered, arrive⟩ ended
    have longer := ((takes_remapOutput archive loaded progress output).trail ended).steps_extend
    obtain ⟨onward, presentStill, arrival, wrote, arrives⟩ :=
      carries.arrives_of_remapOutput needed present load delivered (OutputCache.isJar_of_mem listed) ended
    refine ⟨onward, ⟨presentStill, load.mono longer⟩, _, wrote, rel_append ?_ (.cons arrives .nil)⟩
    exact arrive.imp fun _ _ earlier => earlier.mono longer

theorem OutputsSeparate.nodup_of_arrives {stale : List InputArchive} (separate : job.OutputsSeparate targets tree)
    (chosen : stale.Sublist job.archives)
    (arrive : Forall₂ (job.Arrives profile chain tree steps) (job.hops targets stale) arrivals) :
    (arrivals.map Prod.fst).Nodup := by
  have places : (job.hops targets stale).map (fun hop => tree.spot hop.2.path) = arrivals.map Prod.fst := by
    rw [← forall₂_eq_eq_eq, forall₂_map_left_iff, forall₂_map_right_iff]
    exact arrive.imp fun _ _ arrives => arrives.place.symm
  rw [← places, hops, map_flatMap]
  simp only [map_map]
  exact Nodup.sublist (chosen.flatMap _) separate

/-- A run that succeeds, with a profile that lets inner classes follow their owners, writes the outputs of the stale
archives one after the other. For every target but the last namespace but one, a class that the mappings rename gets
their name. Another one, of whichever archive, gets the new name of the class that its owners lead to with the rest of
its own name, if the primary archive has a class of this name. All others keep their names, whatever owners they have.
An output stands at its place in the end, if no two outputs of the job are at the same place. -/
theorem run_names_inner_classes {report : RunReport} {final : FileTree} (needed : .innerClasses ∈ profile.fixups)
    (ran : (job.run profile).runOn tree = (.ok report, final, steps)) :
    ∃ chain stale, ((job.plan profile).runOn tree).1 = .ok (chain, stale) ∧
      List.Forall₂ (fun hop arrival => job.Arrives profile chain tree steps hop arrival ∧
          (job.OutputsSeparate chain.targets tree → final.file? hop.2.path = some arrival.2))
        (job.hops chain.targets stale) (tree.arrivals steps) := by
  obtain ⟨after, ended, rfl, rfl⟩ := runOn_eq.mp ran
  cases course_of_ends ended with
  | @done chain stale hops middle _ opened checked remapped =>
    have planned : ((job.plan profile).runOn tree).1 = .ok (chain, stale) := by
      rw [runOn_of_ends (ends_plan_ok opened checked)]
    have passed := ends_staleArchives_ok checked
    have begun : Delivered tree middle [] := (Delivered.start tree).trail_removes passed.trail
    obtain ⟨last, done, _⟩ := ends_remapArchives_iff.mp remapped
    have carries : job.Carries profile chain tree middle.steps.reverse
        ⟨.create chain profile job.classpath, none, 0⟩ := ⟨rfl, rfl, nofun⟩
    obtain ⟨written, delivered, arrive⟩ := carries.arrives_of_foldlM_remapArchive needed begun done
    refine ⟨chain, stale, planned, ?_⟩
    rw [delivered.arrived]
    obtain ⟨lengths, each⟩ := List.forall₂_iff_zip.mp arrive
    refine List.forall₂_iff_zip.mpr ⟨lengths, fun {hop arrival} paired => ⟨each paired, fun separate => ?_⟩⟩
    obtain ⟨hopListed, arrivalListed⟩ := List.of_mem_zip paired
    obtain ⟨archive, listed, paths⟩ := List.mem_flatMap.mp hopListed
    obtain ⟨output, outputListed, rfl⟩ := List.mem_map.mp paths
    have present := (present_of_done checked remapped).2.2 archive (passed.sublist.subset listed) output outputListed
    refine delivered.file?_eq (separate.nodup_of_arrives passed.sublist arrive) ?_ present
    rwa [← (each paired).place]

def classNames (content : FileContent) : Option (List (String × Option String)) :=
  content.entries?.map fun entries => entries.map fun entry =>
    (entry.name, (ClassFile.read entry.data >>= ClassFile.name).toOption)

/-- Both archives have an inner class of `A`, which is renamed to `p/B`. It follows its owner in the outputs for the
last namespace. -/
theorem run_names_inner_classes_twoArchives :
    let run := (innerClassJob.run innerClassProfile).runOn innerClassTree
    run.1.isOk = true ∧
      (innerClassTree.arrivals run.2.2).map (fun arrival => classNames arrival.2) =
        [some [("A$I.class", some "A$I")], some [("p/B$I.class", some "p/B$I")],
          some [("A$I.class", some "A$I")], some [("p/B$I.class", some "p/B$I")]] ∧
      ∃ chain stale, ((innerClassJob.plan innerClassProfile).runOn innerClassTree).1 = .ok (chain, stale) ∧
        List.Forall₂ (fun hop arrival =>
            innerClassJob.Arrives innerClassProfile chain innerClassTree run.2.2 hop arrival ∧
            (innerClassJob.OutputsSeparate chain.targets innerClassTree → run.2.1.file? hop.2.path = some arrival.2))
          (innerClassJob.hops chain.targets stale) (innerClassTree.arrivals run.2.2) := by
  -- The run is evaluated here, and only its result is used below.
  have course : ∀ run, (innerClassJob.run innerClassProfile).runOn innerClassTree = run → run.1.isOk = true ∧
      (innerClassTree.arrivals run.2.2).map (fun arrival => classNames arrival.2) =
        [some [("A$I.class", some "A$I")], some [("p/B$I.class", some "p/B$I")],
          some [("A$I.class", some "A$I")], some [("p/B$I.class", some "p/B$I")]] := by
    rintro _ rfl
    decide +kernel
  generalize ran : (innerClassJob.run innerClassProfile).runOn innerClassTree = run at course ⊢
  obtain ⟨succeeds, named⟩ := course _ rfl
  obtain ⟨failure | report, final, steps⟩ := run
  · cases succeeds
  exact ⟨rfl, named, run_names_inner_classes (by decide) ran⟩

/-- The class `A`, which is renamed to `p/B`, is in the first archive, and its inner class `A$I` is in the second one
only. -/
def patchedClassTree : FileTree :=
  innerClassTree.replay [
    .write ["game.jar"] (.archive [{ name := "A.class", data := sampleClass, modified := .earliest }])]

/-- An inner class that only the second archive has does not follow its owner. The mappings rename `A` to `p/B` and do
not rename `A$I`. No class declares an owner, so `A$I` is led to `A` by its name. Still the outputs for the last
namespace have the classes `p/B` and `A$I`. -/
theorem run_leaves_secondary_inner_class :
    let run := (innerClassJob.run innerClassProfile).runOn patchedClassTree
    run.1.isOk = true ∧
      (run.2.1.file? "cache/1-mapped-yarn-1-forge/game-1-mapped-yarn-1-forge.jar").bind classNames =
        some [("p/B.class", some "p/B")] ∧
      (run.2.1.file? "cache/1-mapped-yarn-1-forge/patched-1-mapped-yarn-1-forge.jar").bind classNames =
        some [("A$I.class", some "A$I")] ∧
      ∃ chain stale primary mappings,
        ((innerClassJob.plan innerClassProfile).runOn patchedClassTree).1 = .ok (chain, stale) ∧
        ((LoadedArchive.load "game" "game.jar").runOn patchedClassTree).1 = .ok primary ∧
        Declare primary.image.classes ["A"] [] ∧
        RemapEngine.mappingsFor chain innerClassProfile "named" = .ok mappings ∧
        mappings.class? "A$I" = none ∧ LeadsTo (OwnedBy []) mappings "A$I" "p/B$I" := by
  have course : ∀ run, (innerClassJob.run innerClassProfile).runOn patchedClassTree = run → run.1.isOk = true ∧
      (run.2.1.file? "cache/1-mapped-yarn-1-forge/game-1-mapped-yarn-1-forge.jar").bind classNames =
        some [("p/B.class", some "p/B")] ∧
      (run.2.1.file? "cache/1-mapped-yarn-1-forge/patched-1-mapped-yarn-1-forge.jar").bind classNames =
        some [("A$I.class", some "A$I")] := by
    rintro _ rfl
    decide +kernel
  have answers : (do
      let planned ← ((innerClassJob.plan innerClassProfile).runOn patchedClassTree).1
      let mappings ← RemapEngine.mappingsFor planned.1 innerClassProfile "named"
      return (mappings.class? "A", mappings.class? "A$I") : Outcome _) = .ok (some "p/B", none) := by decide +kernel
  have holds : (do
      let primary ← ((LoadedArchive.load "game" "game.jar").runOn patchedClassTree).1
      return primary.image.classes : Outcome _) = .ok [⟨"A.class", sampleClass, some .earliest⟩] := by decide +kernel
  have tells : (do
      let file ← ClassFile.read sampleClass
      let name ← file.name
      let declared ← file.innerClasses
      return (name, declared) : Outcome _) = .ok ("A", []) := by decide +kernel
  simp only [Outcome.bind_eq_ok, Outcome.pure_eq_ok, Prod.exists, Prod.mk.injEq] at answers holds tells
  obtain ⟨chain, stale, planned, mappings, chained, renamed, kept⟩ := answers
  obtain ⟨primary, loaded, classes⟩ := holds
  obtain ⟨file, read, _, named, _, declared, rfl, rfl⟩ := tells
  have spelled : "A$I" = "A" ++ "$" ++ "I" := rfl
  have leads : InnerOwners.Leads (InnerOwners.OwnedBy []) mappings "A$I" "A" :=
    .up kept ⟨by decide, .inr ⟨rfl, "I", spelled, by decide⟩⟩ spelled (.here renamed)
  obtain ⟨succeeds, game, patched⟩ := course _ rfl
  refine ⟨succeeds, game, patched, chain, stale, primary, mappings, planned, loaded, ?_, chained, kept,
    "A", "p/B", "$I", leads, renamed, rfl, rfl⟩
  rw [classes]
  exact ⟨[("A", [])], .cons ⟨file, read, named, declared⟩ .nil, rfl, rfl⟩

end RemapJob

end JarRemap
