import JarRemap.Proofs.RemappedArchives

/-!
# Loading an archive with many workers

Workers read the class entries of an archive at the same time. Each takes an entry that no other has taken, reads
it, and appends the class to a list that all of them share. The order of the list depends on who was faster, but
if nothing failed, every class entry was appended once, and sorting by path leaves one list only.
-/
namespace JarRemap

open Relation List ArchiveEntry Outcome ClassEntry

/-- What the workers have done so far. -/
structure Loading where
  /-- The class entries that no worker has taken. -/
  waiting : List ArchiveEntry
  /-- The class entries that are being read. -/
  working : List ArchiveEntry
  /-- The list that all workers append to. -/
  done : List ClassEntry
  failures : List Failure

namespace Loading

/-- One worker goes on. How entries are read is left open. -/
inductive Step (read : ArchiveEntry → Outcome Bytes) (state : Loading) : Loading → Prop
  | take {front back : List ArchiveEntry} {entry : ArchiveEntry} (waits : state.waiting = front ++ entry :: back) :
      Step read state { state with waiting := front ++ back, working := entry :: state.working }
  | append {front back : List ArchiveEntry} {entry : ArchiveEntry} {bytes : Bytes}
      (taken : state.working = front ++ entry :: back) (given : read entry = .ok bytes) :
      Step read state { state with
        working := front ++ back, done := state.done ++ [⟨entry.name, bytes, some entry.modified⟩] }
  | fail {front back : List ArchiveEntry} {entry : ArchiveEntry} {failure : Failure}
      (taken : state.working = front ++ entry :: back) (refused : read entry = .error failure) :
      Step read state { state with working := front ++ back, failures := failure :: state.failures }
  /-- After a failure, entries need not be read. -/
  | leave {front back : List ArchiveEntry} {entry : ArchiveEntry} (failed : state.failures ≠ [])
      (waits : state.waiting = front ++ entry :: back) : Step read state { state with waiting := front ++ back }

def start (entries : List ArchiveEntry) : Loading := ⟨entries.filter isClass, [], [], []⟩

/-- No worker has anything left to do. -/
def Finished (state : Loading) : Prop := state.waiting = [] ∧ state.working = []

/-- What the workers give in the end, for the archive at a path. -/
def result (path : String) (state : Loading) : Outcome ArchiveImage :=
  match state.failures with
  | [] => .ok (.ofClasses path state.done)
  | failure :: _ => .error failure

/-- The class is what the entry holds when it is read. -/
structure ReadAs (read : ArchiveEntry → Outcome Bytes) (entry : ArchiveEntry) (item : ClassEntry) : Prop where
  path : item.path = entry.name
  bytes : read entry = .ok item.bytes
  modified : item.modified = some entry.modified

/-- The image has the classes of all class entries, each once, sorted by path. -/
structure IsImage (read : ArchiveEntry → Outcome Bytes) (path : String) (entries : List ArchiveEntry)
    (image : ArchiveImage) : Prop where
  source : image.source = path
  sorted : image.classes.Pairwise fun first second => first.path < second.path
  mem : ∀ item, item ∈ image.classes ↔ ∃ entry ∈ entries, entry.isClass = true ∧ ReadAs read entry item
  complete : ∀ entry ∈ entries, entry.isClass = true → ∃ item, ReadAs read entry item

variable {read : ArchiveEntry → Outcome Bytes} {path : String} {entries finished : List ArchiveEntry}
  {state next final : Loading} {done : List ClassEntry}

theorem IsImage.unique {first second : ArchiveImage} (isFirst : IsImage read path entries first)
    (isSecond : IsImage read path entries second) : first = second := by
  have nodup : ∀ {image}, IsImage read path entries image → image.classes.Nodup := fun isImage =>
    isImage.sorted.imp fun less same => absurd (same ▸ less) (lt_irrefl _)
  have perm : first.classes.Perm second.classes := by
    refine (perm_ext_iff_of_nodup (nodup isFirst) (nodup isSecond)).mpr fun item => ?_
    rw [isFirst.mem, isSecond.mem]
  have same : first.classes = second.classes :=
    perm.eq_of_pairwise (fun _ _ _ _ less greater => absurd less (lt_asymm greater)) isFirst.sorted isSecond.sorted
  obtain ⟨_, _⟩ := first
  obtain ⟨_, _⟩ := second
  rw [ArchiveImage.mk.injEq]
  exact ⟨isFirst.source.trans isSecond.source.symm, same⟩

theorem ReadAs.unique {entry : ArchiveEntry} {first second : ClassEntry} (isFirst : ReadAs read entry first)
    (isSecond : ReadAs read entry second) : first = second := by
  obtain ⟨path, bytes, modified⟩ := first
  obtain ⟨rfl, given, rfl⟩ := isFirst
  obtain ⟨same, givenToo, sameTime⟩ := isSecond
  cases second
  simp_all

/-- The classes may have been read in any order. -/
theorem isImage_ofClasses (distinct : (entries.map name).Nodup)
    (perm : finished.Perm (entries.filter isClass)) (each : List.Forall₂ (ReadAs read) finished done) :
    IsImage read path entries (.ofClasses path done) where
  source := rfl
  sorted := by
    have names : done.map ClassEntry.path = finished.map name :=
      map_eq_of_forall₂ (each.imp fun _ _ isRead => isRead.path)
    have nodup : (finished.map name).Nodup := (perm.map _).nodup_iff.mpr (distinct.sublist (filter_sublist.map _))
    rw [← names, ← ((ClassEntry.sorted_perm done).map ClassEntry.path).nodup_iff] at nodup
    exact ((ClassEntry.pairwise_sorted done).and (pairwise_map.mp nodup)).imp fun ⟨le, ne⟩ => lt_of_le_of_ne le ne
  mem item := by
    have listed : ∀ entry, entry ∈ finished ↔ entry ∈ entries ∧ entry.isClass = true := fun entry => by
      rw [perm.mem_iff, mem_filter]
    refine ((ClassEntry.sorted_perm done).mem_iff).trans ⟨fun held => ?_, ?_⟩
    · obtain ⟨entry, found, isRead⟩ := exists_mem_of_forall₂ each.flip held
      exact ⟨entry, ((listed entry).mp found).1, ((listed entry).mp found).2, isRead⟩
    · rintro ⟨entry, found, isClass, isRead⟩
      obtain ⟨other, held, otherRead⟩ := exists_mem_of_forall₂ each ((listed entry).mpr ⟨found, isClass⟩)
      exact isRead.unique otherRead ▸ held
  complete entry found isClass := by
    obtain ⟨item, _, isRead⟩ := exists_mem_of_forall₂ each (perm.mem_iff.mpr (mem_filter.mpr ⟨found, isClass⟩))
    exact ⟨item, isRead⟩

/-- Nothing failed, and every class entry is waiting, being read, or appended; or one of them cannot be read. -/
inductive Sound (read : ArchiveEntry → Outcome Bytes) (entries : List ArchiveEntry) (state : Loading) : Prop
  | well {finished : List ArchiveEntry} (none : state.failures = [])
      (perm : (state.waiting ++ state.working ++ finished).Perm (entries.filter isClass))
      (each : List.Forall₂ (ReadAs read) finished state.done)
  | failed {entry : ArchiveEntry} {failure : Failure} (some : state.failures ≠ []) (found : entry ∈ entries)
      (isClass : entry.isClass = true) (refused : read entry = .error failure)

theorem Sound.step (sound : Sound read entries state) (step : Step read state next) : Sound read entries next := by
  cases sound with
  | failed some found isClass refused =>
    refine .failed ?_ found isClass refused
    cases step with
    | fail => exact cons_ne_nil _ _
    | _ => exact some
  | @well finished none perm each =>
    cases step with
    | take waits =>
      refine .well none (List.Perm.trans ?_ perm) each
      rw [waits]
      exact perm_iff_count.mpr fun other => by simp [count_cons]; omega
    | @append front back entry bytes taken given =>
      refine .well none (List.Perm.trans ?_ perm) (rel_append each (.cons ⟨rfl, given, rfl⟩ .nil))
      rw [taken]
      exact perm_iff_count.mpr fun other => by simp [count_cons]; omega
    | @fail front back entry failure taken refused =>
      have listed : entry ∈ state.waiting ++ state.working ++ finished := by simp [taken]
      obtain ⟨found, isClass⟩ := mem_filter.mp (perm.subset listed)
      exact .failed (cons_ne_nil _ _) found isClass refused
    | leave failed => exact absurd none failed

theorem sound_of_run (run : ReflTransGen (Step read) (start entries) state) : Sound read entries state := by
  induction run with
  | refl => exact .well rfl (by simp [start]) .nil
  | tail _ step ih => exact ih.step step

/-- A bound for the steps that are left. -/
def left (state : Loading) : Nat := 2 * state.waiting.length + state.working.length

theorem Step.left_lt (step : Step read state next) : next.left < state.left := by
  cases step <;> grind [left]

theorem exists_step (unfinished : ¬ state.Finished) : ∃ next, Step read state next := by
  cases waits : state.waiting with
  | cons entry back => exact ⟨_, .take (nil_append (entry :: back) ▸ waits)⟩
  | nil =>
    cases taken : state.working with
    | nil => exact absurd ⟨waits, taken⟩ unfinished
    | cons entry back =>
      cases given : read entry with
      | ok bytes => exact ⟨_, .append (nil_append (entry :: back) ▸ taken) given⟩
      | error failure => exact ⟨_, .fail (nil_append (entry :: back) ▸ taken) given⟩

section finished

variable (distinct : (entries.map name).Nodup)
include distinct

theorem result_of_run (run : ReflTransGen (Step read) (start entries) final) (finished : final.Finished) :
    (∀ image, final.result path = .ok image → IsImage read path entries image) ∧
      ∀ failure, final.result path = .error failure →
        ∃ entry ∈ entries, entry.isClass = true ∧ ∃ failure, read entry = .error failure := by
  rw [result]
  cases sound_of_run run with
  | well none perm each =>
    rw [finished.1, finished.2] at perm
    rw [none]
    exact ⟨fun image given => Except.ok.inj given ▸ isImage_ofClasses distinct perm each,
      fun _ failed => (by cases failed)⟩
  | failed some found isClass refused =>
    obtain ⟨failure, failures, shape⟩ := exists_cons_of_ne_nil some
    rw [shape]
    exact ⟨fun _ given => (by cases given), fun _ _ => ⟨_, found, isClass, _, refused⟩⟩

/-- Loading without workers gives the image too. -/
theorem isImage_ofEntries (own : ∀ entry ∈ entries, entry.isClass = true → read entry = entry.read)
    (given : ofEntries entries = .ok done) : IsImage read path entries (.ofClasses path done) := by
  refine isImage_ofClasses distinct (.refl _) ?_
  refine ((forall₂_and_left _ _).mpr ⟨fun _ => id, mapM_eq_ok.mp given⟩).imp ?_
  rintro entry item ⟨listed, made⟩
  obtain ⟨found, isClass⟩ := mem_filter.mp listed
  obtain ⟨bytes, held, same⟩ := bind_eq_ok.mp made
  obtain rfl := pure_eq_ok.mp same
  exact ⟨rfl, (own entry found isClass).trans (within_eq_ok.mp held), rfl⟩

end finished

theorem exists_ofEntries (readable : ∀ entry ∈ entries, entry.isClass = true → ∃ bytes, entry.read = .ok bytes) :
    ∃ done, ofEntries entries = .ok done := by
  simp only [ofEntries, mapM_eq_ok, exists_forall₂]
  intro entry listed
  obtain ⟨found, isClass⟩ := mem_filter.mp listed
  obtain ⟨bytes, held⟩ := readable entry found isClass
  exact ⟨_, bind_eq_ok.mpr ⟨bytes, within_eq_ok.mpr held, rfl⟩⟩

/-- Whatever the order in which workers go on, they come to an end, and what they give does not depend on it. It is
an image with the classes of all class entries, each once, with its own bytes and sorted by path, or a failure if an
entry cannot be read. So the hierarchy and the owners of inner classes do not depend on the order either. If `read`
is how entries are read, an image is given exactly if it is the one that is loaded without workers. -/
theorem load_by_workers (read : ArchiveEntry → Outcome Bytes) (path : String) (entries : List ArchiveEntry)
    (distinct : (entries.map ArchiveEntry.name).Nodup) :
    (∀ state next, Step read state next → next.left < state.left) ∧
    (∀ state, (∃ next, Step read state next) ∨ state.Finished) ∧
    ∀ final, ReflTransGen (Step read) (start entries) final → final.Finished →
      (∀ image, final.result path = .ok image → IsImage read path entries image) ∧
      (∀ failure, final.result path = .error failure →
        ∃ entry ∈ entries, entry.isClass = true ∧ ∃ failure, read entry = .error failure) ∧
      (∀ other image second, ReflTransGen (Step read) (start entries) other → other.Finished →
        final.result path = .ok image → other.result path = .ok second → image = second ∧
          image.hierarchy = second.hierarchy ∧ InnerOwners.ofImage image = InnerOwners.ofImage second) ∧
      ((∀ entry ∈ entries, entry.isClass = true → read entry = entry.read) → ∀ (before : Session) content,
        before.tree.file? path = some content → content.entries? = some entries → ∀ image,
          (ArchiveImage.load path).Ends before (.ok image) before ↔ final.result path = .ok image) := by
  refine ⟨fun _ _ step => step.left_lt, fun state => (em state.Finished).symm.imp_left exists_step,
    fun final run finished => ?_⟩
  obtain ⟨made, failed⟩ := result_of_run distinct run finished
  refine ⟨made, failed, fun other image second otherRun otherFinished given givenToo => ?_,
    fun own before content standing held image => ⟨fun loaded => ?_, fun given => ?_⟩⟩
  · obtain rfl := (made image given).unique ((result_of_run distinct otherRun otherFinished).1 second givenToo)
    exact ⟨rfl, rfl, rfl⟩
  · obtain ⟨_, _, _, found, heldToo, given, rfl, _⟩ := ArchiveImage.ends_load_ok.mp loaded
    obtain rfl := Option.some.inj (standing.symm.trans found)
    obtain rfl := Option.some.inj (held.symm.trans heldToo)
    have isImage : IsImage read path entries _ := isImage_ofEntries distinct own given
    cases reached : final.result path with
    | ok second => rw [(made second reached).unique isImage]
    | error failure =>
      obtain ⟨entry, found, isClass, _, refused⟩ := failed failure reached
      obtain ⟨item, isRead⟩ := isImage.complete entry found isClass
      rw [isRead.bytes] at refused
      cases refused
  · obtain ⟨done, loaded⟩ : ∃ done, ClassEntry.ofEntries entries = .ok done := by
      refine exists_ofEntries fun entry found isClass => ?_
      obtain ⟨item, isRead⟩ := (made image given).complete entry found isClass
      exact ⟨_, (own entry found isClass).symm.trans isRead.bytes⟩
    obtain rfl := (made image given).unique (isImage_ofEntries distinct own loaded)
    exact ArchiveImage.ends_load_ok.mpr ⟨content, entries, done, standing, held, loaded, rfl, rfl⟩

/-- An archive with two classes, the second of which comes first when they are sorted. -/
def racingEntries : List ArchiveEntry :=
  [⟨"B.class", [2], .earliest, none⟩, ⟨"notes.txt", [0], .earliest, none⟩, ⟨"A.class", [1], .earliest, none⟩]

/-- The worker with the second class is the faster one. -/
theorem load_by_workers_racing :
    ∃ final image, ReflTransGen (Step fun entry => .ok entry.data) (start racingEntries) final ∧ final.Finished ∧
      final.done.map ClassEntry.path = ["A.class", "B.class"] ∧ final.result "game.jar" = .ok image ∧
      IsImage (fun entry => .ok entry.data) "game.jar" racingEntries image := by
  have classes : racingEntries.filter ArchiveEntry.isClass =
      [⟨"B.class", [2], .earliest, none⟩, ⟨"A.class", [1], .earliest, none⟩] := by decide +kernel
  have run : ReflTransGen (Step fun entry => .ok entry.data) (start racingEntries)
      ⟨[], [], [⟨"A.class", [1], some .earliest⟩, ⟨"B.class", [2], some .earliest⟩], []⟩ := by
    rw [start, classes]
    refine .head (.take (List.nil_append _).symm) (.head (.take (List.nil_append _).symm) ?_)
    exact .head (.append (List.nil_append _).symm rfl) (.head (.append (List.nil_append _).symm rfl) .refl)
  obtain ⟨_, _, settles⟩ := load_by_workers (fun entry => .ok entry.data) "game.jar" racingEntries (by decide +kernel)
  exact ⟨_, _, run, ⟨rfl, rfl⟩, rfl, rfl, (settles _ run ⟨rfl, rfl⟩).1 _ rfl⟩

end Loading

end JarRemap
