import JarRemap.Proofs.OutputNames
import JarRemap.Proofs.RepeatedRuns

/-!
# The archives that a run writes

An archive is written when its temporary file is moved to the place of an output; `arrivals` gives what is moved
where, in order. A run that succeeds moves one archive for each target of each stale archive, with the entries
that could be told from the inputs before the run. So it does not matter which other archives are stale.
-/
namespace JarRemap

open Session FileM FileTree List FileStep OutputCache

variable {target : String} {entries : List ArchiveEntry}

namespace FileStep

variable {step : FileStep} {tree : FileTree} {paths : Set String}

/-- The file that the step moves, with the place that it is moved to. -/
def arrival? (step : FileStep) (tree : FileTree) : Option (Place × FileContent) :=
  match step with
  | rename source target =>
    match tree.node? source with
    | some (.file content) => some (target, content)
    | _ => none
  | _ => none

theorem Drafts.arrival?_eq (drafts : Drafts paths tree step) : step.arrival? tree = none := by
  cases step with
  | rename source target => exact absurd rfl (drafts.unmoved source target)
  | _ => rfl

theorem Removes.arrival?_eq (removes : Removes paths tree step) : step.arrival? tree = none := by
  cases removes with
  | delete => rfl

end FileStep

namespace FileTree

def arrivals (tree : FileTree) : List FileStep → List (Place × FileContent)
  | [] => []
  | step :: steps => (step.arrival? tree).toList ++ (step.apply tree).arrivals steps

theorem arrivals_append (tree : FileTree) (first second : List FileStep) :
    tree.arrivals (first ++ second) = tree.arrivals first ++ (tree.replay first).arrivals second := by
  induction first generalizing tree with
  | nil => rfl
  | cons step steps ih =>
    change (step.arrival? tree).toList ++ (step.apply tree).arrivals (steps ++ second) = _
    rw [ih, ← append_assoc]
    rfl

end FileTree

namespace Session

variable {tree : FileTree} {before after session : Session} {arrivals : List (Place × FileContent)} {paths : Set String}

/-- A session that began with the tree has moved these files to the places of outputs. All of them stand
there, if no two were moved to the same place. -/
structure Delivered (tree : FileTree) (session : Session) (arrivals : List (Place × FileContent)) : Prop where
  replayed : session.tree = tree.replay session.steps.reverse
  arrived : tree.arrivals session.steps.reverse = arrivals
  jars : ∀ arrival ∈ arrivals, ∃ path, Path.IsJar path ∧ arrival.1 = tree.spot path
  standing : (arrivals.map Prod.fst).Nodup → ∀ arrival ∈ arrivals,
    session.tree.node? arrival.1 = some (.file arrival.2)

namespace Delivered

theorem start (tree : FileTree) : Delivered tree ⟨tree, []⟩ [] := ⟨rfl, rfl, by simp, by simp⟩

section

variable (delivered : Delivered tree session arrivals)
include delivered

theorem spot_eq (path : String) : session.tree.spot path = tree.spot path := by
  rw [delivered.replayed]
  exact spot_congr (workingPlace_replay tree _) path

theorem replayed_advance (step : FileStep) :
    (session.advance step).tree = tree.replay (session.advance step).steps.reverse := by
  rw [advance_tree, advance_steps, reverse_cons, replay_append, replay_singleton, ← delivered.replayed]

theorem arrivals_advance (step : FileStep) :
    tree.arrivals (session.advance step).steps.reverse = arrivals ++ (step.arrival? session.tree).toList := by
  rw [advance_steps, reverse_cons, arrivals_append, delivered.arrived, ← delivered.replayed]
  exact congrArg (arrivals ++ ·) (append_nil _)

theorem quiet {touched : Set Place} (unmoved : step.arrival? session.tree = none)
    (keeps : Keeps touched session.tree (step.apply session.tree))
    (others : ∀ arrival ∈ arrivals, arrival.1 ∉ touched) : Delivered tree (session.advance step) arrivals where
  replayed := delivered.replayed_advance step
  arrived := by rw [delivered.arrivals_advance, unmoved, Option.toList_none, append_nil]
  jars := delivered.jars
  standing separate arrival listed :=
    (keeps.files arrival.1 (others arrival listed) arrival.2).mpr (delivered.standing separate arrival listed)

end

theorem trail_removes (delivered : Delivered tree before [])
    (trail : Trail (Removes paths) before after) : Delivered tree after [] :=
  trail.keeps (Delivered tree · []) delivered fun _ _ delivered removes =>
    delivered.quiet removes.arrival?_eq removes.loses.keeps (forall_mem_nil _)

theorem trail_drafts {output : String} (delivered : Delivered tree before arrivals) (jar : Path.IsJar output)
    (trail : Trail (Drafts {output}) before after) : Delivered tree after arrivals := by
  refine trail.keeps (Delivered tree · arrivals) delivered fun session step delivered drafts => ?_
  refine delivered.quiet drafts.arrival?_eq drafts.keeps fun arrival listed => ?_
  obtain ⟨path, pathJar, placed⟩ := delivered.jars arrival listed
  rintro ⟨_, ⟨_, rfl, rfl⟩, meets⟩
  rw [placed, delivered.spot_eq] at meets
  exact tree.spot_ne_temporary pathJar jar meets.symm

theorem move {output : String} (delivered : Delivered tree session arrivals)
    (jar : Path.IsJar output)
    (complete : session.tree.node? (session.tree.spot (Path.temporary output)) = some (.file (.archive entries)))
    (free : session.tree.node? (session.tree.spot output) ≠ some .directory) :
    Delivered tree (session.advance (.rename (session.tree.spot (Path.temporary output)) (session.tree.spot output)))
      (arrivals ++ [(tree.spot output, .archive entries)]) where
  replayed := delivered.replayed_advance _
  arrived := by
    rw [delivered.arrivals_advance, arrival?, complete, delivered.spot_eq]
    rfl
  jars := forall_mem_append.mpr ⟨delivered.jars, forall_mem_singleton.mpr ⟨output, jar, rfl⟩⟩
  standing separate := by
    rw [map_append, nodup_append] at separate
    obtain ⟨separateOthers, _, different⟩ := separate
    refine forall_mem_append.mpr ⟨fun arrival listed => ?_, forall_mem_singleton.mpr ?_⟩
    · -- An archive that was delivered before stands neither at the old place nor at the new one.
      obtain ⟨path, pathJar, placed⟩ := delivered.jars arrival listed
      have fromSource : arrival.1 ≠ session.tree.spot (Path.temporary output) := by
        rw [placed, delivered.spot_eq]
        exact tree.spot_ne_temporary pathJar jar
      have fromTarget : arrival.1 ≠ session.tree.spot output := by
        rw [delivered.spot_eq]
        exact different _ (mem_map_of_mem listed) _ (by simp)
      rw [advance_tree, node?_apply_other (by simp [places, fromSource, fromTarget])]
      exact delivered.standing separateOthers arrival listed
    · rw [← delivered.spot_eq]
      exact (node?_rename complete free).1

theorem file?_eq {path : String} {content : FileContent} (delivered : Delivered tree session arrivals)
    (separate : (arrivals.map Prod.fst).Nodup) (listed : (tree.spot path, content) ∈ arrivals)
    (present : session.tree.isFile path = true) : session.tree.file? path = some content := by
  have standing := delivered.standing separate _ listed
  rw [← delivered.spot_eq path] at standing
  exact file?_eq_some.mpr (find_eq_ok.mpr ⟨(isFile_iff.mp present).1, standing⟩)

end Delivered

end Session

section writing

variable {tree : FileTree} {before after : Session} {arrivals : List (Place × FileContent)} {output : String}
  {content : FileContent}

theorem ArchiveWriter.delivered_of_ends_write {writer : ArchiveWriter} {classes : List ClassEntry}
    {source : String} (delivered : Delivered tree before arrivals) (jar : Path.IsJar output)
    (ended : (writer.write output classes source).Ends before (.ok ()) after)
    (standing : after.tree.file? output = some content) :
    Delivered tree after (arrivals ++ [(tree.spot output, content)]) := by
  rw [write_eq] at ended
  obtain ⟨_, start, made, ended⟩ := ends_bind_ok.mp ended
  obtain ⟨middle, entries, drafts, movable, complete, rfl⟩ := moved_of_ends_writeOrDiscard ended
  rw [advance_tree, file?_of_movable movable complete] at standing
  cases standing
  have makes : Trail (Drafts {output}) before start := (takes_makeFolder output).trail made
  exact (delivered.trail_drafts jar (makes.trans drafts)).move jar complete movable.free

theorem RemapEngine.delivered_of_ends_remapTo {engine next : RemapEngine} {archive : LoadedArchive}
    {owners : Option InnerOwners} (delivered : Delivered tree before arrivals)
    (jar : Path.IsJar output) (ended : (engine.remapTo archive target output owners).Ends before (.ok next) after)
    (standing : after.tree.file? output = some content) :
    Delivered tree after (arrivals ++ [(tree.spot output, content)]) := by
  obtain ⟨_, _, _, _, _, _, wrote, _⟩ := ends_remapTo_ok.mp ended
  exact ArchiveWriter.delivered_of_ends_write delivered jar wrote standing

end writing

namespace RemapJob

variable {job : RemapJob} {chain : NamespaceChain} {profile : Profile} {targets : List String}
  {archives stale : List InputArchive} {archive : InputArchive} {before middle after : Session}
  {progress last : Progress} {loaded : LoadedArchive} {tree : FileTree} {outputs : List OutputArchive}

/-- The archives that have to be moved to their places, if the entries of each are known. -/
def deliveries (job : RemapJob) (targets : List String) (entries : InputArchive → String → List ArchiveEntry)
    (tree : FileTree) (archives : List InputArchive) : List (Place × FileContent) :=
  archives.flatMap fun archive => (job.cache.outputs archive.role targets).map fun output =>
    (tree.spot output.path, .archive (entries archive output.target))

/-- The entries of an output of the job, as they are told from the inputs in the tree. -/
def entriesOn (job : RemapJob) (chain : NamespaceChain) (profile : Profile) (tree : FileTree)
    (archive : InputArchive) (target : String) : List ArchiveEntry :=
  (((job.expected chain profile archive target).runOn tree).1.toOption).getD []

/-- The entries of an output can be told from the inputs in the tree. -/
def Told (job : RemapJob) (chain : NamespaceChain) (profile : Profile) (tree : FileTree)
    (archive : InputArchive) (target : String) : Prop :=
  (job.expected chain profile archive target).Ends ⟨tree, []⟩
    (.ok (job.entriesOn chain profile tree archive target)) ⟨tree, []⟩

theorem entriesOn_of_ends
    (told : (job.expected chain profile archive target).Ends ⟨tree, []⟩ (.ok entries) ⟨tree, []⟩) :
    job.Told chain profile tree archive target ∧ job.entriesOn chain profile tree archive target = entries := by
  have same : job.entriesOn chain profile tree archive target = entries := by
    rw [entriesOn, runOn_of_ends told]
    rfl
  refine ⟨?_, same⟩
  rwa [Told, same]

theorem Supplied.led (supplied : job.Supplied targets tree) :
    ∀ path ∈ job.inputPaths, ∃ node, tree.find path = .ok node := by
  intro path listed
  obtain ⟨node, found, _⟩ := supplied path listed
  exact ⟨node, found⟩

theorem Supplied.sameAt_origin (supplied : job.Supplied targets before.tree)
    (origin : SameAt job.inputPaths before.tree tree)
    (keeps : Keeps (job.outputPlaces targets before.tree) before.tree after.tree) :
    SameAt job.inputPaths after.tree tree :=
  ((supplied.keeps keeps).1.symm supplied.led).trans origin

theorem deliveries_eq (entries : InputArchive → String → List ArchiveEntry) :
    job.deliveries targets entries tree archives = (job.hops targets archives).map fun hop =>
      (tree.spot hop.2.path, .archive (entries hop.1 hop.2.target)) := by
  simp [deliveries, hops, map_flatMap, Function.comp_def]

/-- The outputs arrive in order, with the entries that could be told at the start. -/
theorem Ready.delivered_of_foldlM (ready : job.Ready chain profile targets progress before)
    (included : archives ⊆ job.archives) (origin : SameAt job.inputPaths before.tree tree)
    (delivered : Delivered tree before [])
    (ended : (archives.foldlM (job.remapArchive targets) progress).Ends before (.ok last) after) :
    (∀ hop ∈ job.hops targets archives, job.Told chain profile tree hop.1 hop.2.target) ∧ Delivered tree after
        (job.deliveries targets (job.entriesOn chain profile tree) tree archives) := by
  let Done (done : List (InputArchive × OutputArchive)) (session : Session) : Prop :=
    SameAt job.inputPaths session.tree tree ∧ (∀ hop ∈ done, job.Told chain profile tree hop.1 hop.2.target) ∧
      Delivered tree session (done.map fun hop =>
        (tree.spot hop.2.path, .archive (job.entriesOn chain profile tree hop.1 hop.2.target)))
  rw [deliveries_eq]
  refine (remapping_induction
    (fun done progress session => job.Ready chain profile targets progress session ∧ Done done session)
    (fun archive loaded done progress session =>
      job.Underway chain profile targets archive loaded progress session ∧ Done done session)
    (fun _ between load => ⟨(between.1.ends_loadArchive.mp load).1, between.2⟩) ?_
    (fun within => ⟨within.1.ready, within.2⟩) ⟨ready, origin, forall_mem_nil _, delivered⟩ ended).2.2
  rintro done progress before archive loaded output next after found here ⟨underway, origin, told, delivered⟩ ended
  have listed := included found
  obtain ⟨onward, entries, toldNow, _, standing⟩ := underway.expected_of_ends listed here ended
  have keeps := keeps_of_remapOutput listed here ended
  -- The inputs have not changed since the start, so the same entries could be told then.
  obtain ⟨toldHere, same⟩ :=
    entriesOn_of_ends ((repeats_expected chain profile listed output.target).again origin toldNow)
  obtain ⟨_, _, remapped, settled⟩ := ends_bind_ok.mp ended
  obtain ⟨_, rfl⟩ := ends_pure.mp settled
  have wrote := RemapEngine.delivered_of_ends_remapTo delivered (isJar_of_mem here)
    (ends_within_ok.mp remapped) standing
  refine ⟨onward, underway.supplied.sameAt_origin origin keeps,
    forall_mem_append.mpr ⟨told, forall_mem_singleton.mpr toldHere⟩, ?_⟩
  rwa [map_append, map_singleton, same]

section runs

variable {report : RunReport} {final : FileTree} {steps : List FileStep}

/-- No two outputs of the job are at the same place. -/
def OutputsSeparate (job : RemapJob) (targets : List String) (tree : FileTree) : Prop :=
  (job.archives.flatMap fun archive =>
    (job.cache.outputs archive.role targets).map fun output => tree.spot output.path).Nodup

instance : Decidable (job.OutputsSeparate targets tree) := by
  unfold OutputsSeparate
  infer_instance

theorem OutputsSeparate.nodup (separate : job.OutputsSeparate targets tree)
    (chosen : stale.Sublist job.archives) (entries : InputArchive → String → List ArchiveEntry) :
    ((job.deliveries targets entries tree stale).map Prod.fst).Nodup := by
  have places : (job.deliveries targets entries tree stale).map Prod.fst = stale.flatMap fun archive =>
      (job.cache.outputs archive.role targets).map fun output => tree.spot output.path := by
    simp only [deliveries, map_flatMap, map_map]
    rfl
  rw [places]
  exact List.Nodup.sublist (chosen.flatMap _) separate

/-- What is known of a run that began with the tree, remapped the stale archives and left the final tree. -/
structure Wrote (job : RemapJob) (profile : Profile) (chain : NamespaceChain) (stale : List InputArchive)
    (tree final : FileTree) (steps : List FileStep) : Prop where
  opened : (job.opening profile).Ends ⟨tree, []⟩ (.ok chain) ⟨tree, []⟩
  subset : stale ⊆ job.archives
  led : ∀ path ∈ job.inputPaths, ∃ node, tree.find path = .ok node
  told : ∀ archive ∈ stale, ∀ target ∈ chain.targets, job.Told chain profile tree archive target
  arrived : tree.arrivals steps = job.deliveries chain.targets (job.entriesOn chain profile tree) tree stale
  standing : job.OutputsSeparate chain.targets tree → ∀ archive ∈ stale,
    ∀ output ∈ job.cache.outputs archive.role chain.targets,
      final.file? output.path = some (.archive (job.entriesOn chain profile tree archive output.target))

theorem Wrote.unforced_iff :
    job.unforced.Wrote profile chain stale tree final steps ↔ job.Wrote profile chain stale tree final steps :=
  ⟨fun ⟨opened, subset, led, told, arrived, standing⟩ => ⟨opened, subset, led, told, arrived, standing⟩,
    fun ⟨opened, subset, led, told, arrived, standing⟩ => ⟨opened, subset, led, told, arrived, standing⟩⟩

theorem wrote_of_run (apart : job.InputsApart (profile.namespaces.drop 1) tree)
    (ran : (job.run profile).runOn tree = (.ok report, final, steps)) :
    ∃ chain stale, report.outputs = job.reportedOutputs chain.targets ∧
      ((job.plan profile).runOn tree).1 = .ok (chain, stale) ∧ job.Wrote profile chain stale tree final steps := by
  obtain ⟨after, ended, rfl, rfl⟩ := runOn_eq.mp ran
  cases course_of_ends ended with
  | @done chain stale hops middle _ opened checked remapped =>
    rw [← (targets_of_opening opened).1] at apart
    have planned : ((job.plan profile).runOn tree).1 = .ok (chain, stale) := by
      rw [runOn_of_ends (ends_plan_ok opened checked)]
    have passed := ends_staleArchives_ok checked
    have supplied := supplied_of_opening opened apart
    have ready := passed.ready supplied chain profile
    have origin : SameAt job.inputPaths middle.tree tree := supplied.sameAt_origin (.refl tree) passed.keeps
    have begun : Delivered tree middle [] := (Delivered.start tree).trail_removes passed.trail
    obtain ⟨last, done, _⟩ := ends_remapArchives_iff.mp remapped
    obtain ⟨told, delivered⟩ := ready.delivered_of_foldlM passed.sublist.subset origin begun done
    refine ⟨chain, stale, rfl, planned, opened, passed.sublist.subset, supplied.led, ?_, delivered.arrived, ?_⟩
    · intro archive listed target named
      obtain ⟨output, outputListed, rfl⟩ := exists_mem_of_target job.cache archive.role named
      exact told (archive, output) (mem_hops.mpr ⟨listed, outputListed⟩)
    · intro separate archive listed output outputListed
      have present := (present_of_done checked remapped).2.2 archive (passed.sublist.subset listed)
      refine delivered.file?_eq (separate.nodup passed.sublist _) ?_ (present output outputListed)
      exact mem_flatMap.mpr ⟨archive, listed, mem_map.mpr ⟨output, outputListed, rfl⟩⟩

end runs

section agreement

variable {other : RemapJob} {first second finalFirst finalSecond : FileTree}
  {reportFirst reportSecond : RunReport} {stepsFirst stepsSecond : List FileStep}

theorem Told.sameAt (told : job.Told chain profile second archive target)
    (listed : archive ∈ job.archives) (agree : SameAt job.inputPaths second first) :
    job.Told chain profile first archive target ∧
      job.entriesOn chain profile first archive target = job.entriesOn chain profile second archive target :=
  entriesOn_of_ends ((repeats_expected chain profile listed target).again agree told)

theorem deliveries_congr {entries known : InputArchive → String → List ArchiveEntry}
    (same : ∀ archive ∈ archives, ∀ target ∈ targets, entries archive target = known archive target) :
    job.deliveries targets entries tree archives = job.deliveries targets known tree archives := by
  refine flatMap_congr fun archive listed => map_congr_left fun output outputListed => ?_
  rw [same archive listed output.target (path_of_mem outputListed).1]

/-- Two runs of a job, with or without a request to rebuild, find the same inputs and succeed. Then there are
entries for each archive and target, told by the inputs alone, and both runs write nothing but archives with
these entries: one for each target of each archive that the run finds stale, in order. So an archive that is
stale in both gets the same outputs, whatever else is stale. If no two outputs of the job are at the same
place, they stand there in the end. -/
theorem rebuilds_agree (sameJob : other.unforced = job.unforced)
    (agree : SameAt job.inputPaths first second)
    (apartFirst : job.InputsApart (profile.namespaces.drop 1) first)
    (apartSecond : job.InputsApart (profile.namespaces.drop 1) second)
    (ranFirst : (job.run profile).runOn first = (.ok reportFirst, finalFirst, stepsFirst))
    (ranSecond : (other.run profile).runOn second = (.ok reportSecond, finalSecond, stepsSecond)) :
    ∃ chain staleFirst staleSecond, ∃ entries : InputArchive → String → List ArchiveEntry,
      ((job.plan profile).runOn first).1 = .ok (chain, staleFirst) ∧
      ((other.plan profile).runOn second).1 = .ok (chain, staleSecond) ∧
      (∀ archive ∈ staleFirst ++ staleSecond, ∀ target ∈ profile.namespaces.drop 1,
        ((job.expected chain profile archive target).runOn first).1 = .ok (entries archive target)) ∧
      first.arrivals stepsFirst = job.deliveries (profile.namespaces.drop 1) entries first staleFirst ∧
      second.arrivals stepsSecond = job.deliveries (profile.namespaces.drop 1) entries second staleSecond ∧
      (job.OutputsSeparate (profile.namespaces.drop 1) first →
        job.OutputsSeparate (profile.namespaces.drop 1) second →
        ∀ archive ∈ staleFirst, archive ∈ staleSecond →
          ∀ output ∈ job.cache.outputs archive.role (profile.namespaces.drop 1),
            finalFirst.file? output.path = some (.archive (entries archive output.target)) ∧
            finalSecond.file? output.path = some (.archive (entries archive output.target))) := by
  have apartOther : other.InputsApart (profile.namespaces.drop 1) second := by
    change other.unforced.InputsApart _ _
    rwa [sameJob]
  obtain ⟨chain, staleFirst, _, plannedFirst, wroteFirst⟩ := wrote_of_run apartFirst ranFirst
  obtain ⟨chainSecond, staleSecond, _, plannedSecond, wroteOther⟩ := wrote_of_run apartOther ranSecond
  have wroteSecond : job.Wrote profile chainSecond staleSecond second finalSecond stepsSecond := by
    rw [← Wrote.unforced_iff, ← sameJob]
    exact Wrote.unforced_iff.mpr wroteOther
  have back := agree.symm wroteFirst.led
  obtain ⟨sameChain, _⟩ := wroteSecond.opened.unique ((job.repeats_opening profile).again agree wroteFirst.opened)
  cases sameChain
  have toldSecond : ∀ archive ∈ staleSecond, ∀ target ∈ chain.targets,
      job.Told chain profile first archive target ∧
        job.entriesOn chain profile first archive target = job.entriesOn chain profile second archive target :=
    fun archive listed target named =>
      (wroteSecond.told archive listed target named).sameAt (wroteSecond.subset listed) back
  rw [← (targets_of_opening wroteFirst.opened).1]
  refine ⟨chain, staleFirst, staleSecond, job.entriesOn chain profile first, plannedFirst, plannedSecond, ?_,
    wroteFirst.arrived, ?_, ?_⟩
  · refine List.forall_mem_append.mpr ⟨fun archive listed target named => ?_, fun archive listed target named => ?_⟩
    · rw [runOn_of_ends (wroteFirst.told archive listed target named)]
    · rw [runOn_of_ends (toldSecond archive listed target named).1]
  · rw [wroteSecond.arrived]
    exact deliveries_congr fun archive listed target named => (toldSecond archive listed target named).2.symm
  · intro separateFirst separateSecond archive listedFirst listedSecond output outputListed
    refine ⟨wroteFirst.standing separateFirst archive listedFirst output outputListed, ?_⟩
    rw [(toldSecond archive listedSecond output.target (OutputCache.path_of_mem outputListed).1).2]
    exact wroteSecond.standing separateSecond archive listedSecond output outputListed

def innerClassJob : RemapJob :=
  { twoArchives with identity := { twoArchives.identity with toolchain := .forge } }

def innerClassProfile : Profile := { Profile.ofToolchain .forge with namespaces := ["official", "srg", "named"] }

/-- The class `A$I`, which has no mapping of its own. -/
def innerClass : Bytes := [0xca,0xfe,0xba,0xbe,0,0,0,52,0,3,1,0,3,65,36,73,7,0,1,0,0,0,2,0,0,0,0,0,
  0,0,0,0,0]

/-- The inputs of the job, where the class `A` is renamed to `p/B`. -/
def innerClassTree : FileTree :=
  FileTree.empty.replay [
    .write ["mappings.tiny"] (.bytes (Text.encodeUtf8 "tiny\t2\t0\tofficial\tsrg\tnamed\nc\tA\tp/B\tp/B\n")),
    .write ["game.jar"] (.archive [{ name := "A$I.class", data := innerClass, modified := .earliest }]),
    .write ["patched.jar"] (.archive [{ name := "A$I.class", data := innerClass, modified := .earliest }])]

def freshGameTree : FileTree :=
  innerClassTree.replay [ .makeDirectory ["cache"],
    .write ["cache", "game-1-srg-yarn-1-forge.jar"] (smallArchive "old"),
    .makeDirectory ["cache", "1-mapped-yarn-1-forge"],
    .write ["cache", "1-mapped-yarn-1-forge", "game-1-mapped-yarn-1-forge.jar"] (smallArchive "old")]

/-- Only the second archive is stale in the first run, and both are in the second run. The inner class of the
second archive follows its owner in both. -/
theorem rebuilds_agree_innerClasses :
    let first := (innerClassJob.run innerClassProfile).runOn freshGameTree
    let second := (innerClassJob.run innerClassProfile).runOn innerClassTree
    ∃ entries : InputArchive → String → List ArchiveEntry,
      freshGameTree.arrivals first.2.2 =
        innerClassJob.deliveries ["srg", "named"] entries freshGameTree [⟨"patched", "patched.jar"⟩] ∧
      innerClassTree.arrivals second.2.2 =
        innerClassJob.deliveries ["srg", "named"] entries innerClassTree
          [⟨"game", "game.jar"⟩, ⟨"patched", "patched.jar"⟩] ∧
      (entries ⟨"patched", "patched.jar"⟩ "named").map ArchiveEntry.name = ["p/B$I.class"] := by
  have files : ∀ input ∈ innerClassJob.inputs,
      freshGameTree.isFile input.2 = true ∧ innerClassTree.find input.2 = freshGameTree.find input.2 := by
    decide +kernel
  have agree : SameAt innerClassJob.inputPaths freshGameTree innerClassTree := by
    constructor
    · rintro _ ⟨input, listed, rfl⟩ node found
      rw [(files input listed).2, found]
    · rintro _ ⟨input, listed, rfl⟩ found
      obtain ⟨content, standing⟩ := isFile_iff_found.mp (files input listed).1
      rw [found] at standing
      cases standing
  -- Both runs are evaluated here, and only their results are used below.
  have course : ∀ first second, (innerClassJob.run innerClassProfile).runOn freshGameTree = first →
      (innerClassJob.run innerClassProfile).runOn innerClassTree = second →
      innerClassJob.InputsApart (innerClassProfile.namespaces.drop 1) freshGameTree ∧
      innerClassJob.InputsApart (innerClassProfile.namespaces.drop 1) innerClassTree ∧
      ((innerClassJob.plan innerClassProfile).runOn freshGameTree).1.toOption.map Prod.snd =
        some [⟨"patched", "patched.jar"⟩] ∧
      ((innerClassJob.plan innerClassProfile).runOn innerClassTree).1.toOption.map Prod.snd =
        some [⟨"game", "game.jar"⟩, ⟨"patched", "patched.jar"⟩] ∧
      first.1.isOk = true ∧ second.1.isOk = true ∧
      (freshGameTree.arrivals first.2.2)[1]?.map (fun arrival => arrival.2.entries?.map (List.map ArchiveEntry.name)) =
        some (some ["p/B$I.class"]) := by
    rintro _ _ rfl rfl
    decide +kernel
  generalize ranFirst : (innerClassJob.run innerClassProfile).runOn freshGameTree = first at course ⊢
  generalize ranSecond : (innerClassJob.run innerClassProfile).runOn innerClassTree = second at course ⊢
  obtain ⟨apartFirst, apartSecond, stale, staleAgain, succeeds, succeedsAgain, named⟩ := course _ _ rfl rfl
  obtain ⟨failure | reportFirst, finalFirst, stepsFirst⟩ := first
  · cases succeeds
  obtain ⟨failure | reportSecond, finalSecond, stepsSecond⟩ := second
  · cases succeedsAgain
  obtain ⟨chain, staleFirst, staleSecond, entries, plannedFirst, plannedSecond, _, arrivedFirst, arrivedSecond, _⟩ :=
    rebuilds_agree rfl agree apartFirst apartSecond ranFirst ranSecond
  rw [plannedFirst] at stale
  rw [plannedSecond] at staleAgain
  cases stale
  cases staleAgain
  refine ⟨entries, arrivedFirst, arrivedSecond, ?_⟩
  rw [arrivedFirst] at named
  exact Option.some.inj (Option.some.inj named)

end agreement

end RemapJob

end JarRemap
