import JarRemap.Job.Cache
import JarRemap.Proofs.TextCuts
import JarRemap.Proofs.TreePlaces

/-!
# The paths of outputs

Every output has a path that ends like an archive, and what is written before it has the same path with an
ending of its own. The end of a path is the end of its last name, so an output and its temporary file stand
in one directory, no output stands where any temporary file does, and neither is taken for a class.
-/
namespace JarRemap

open List JarRemap.Path Text

namespace Text

theorem parts_of_absent {mark : Char} {text : List Char} (absent : mark ∉ text) : parts mark text = [text] := by
  induction text with
  | nil => rfl
  | cons c rest ih =>
    rw [mem_cons, not_or] at absent
    rw [parts, if_neg (Ne.symm absent.1), ih absent.2]

theorem exists_parts_append (mark : Char) (text : List Char) :
    ∃ first last, ∀ tail, mark ∉ tail → parts mark (text ++ tail) = first ++ [last ++ tail] := by
  induction text with
  | nil => exact ⟨[], [], fun tail absent => by simp [parts_of_absent absent]⟩
  | cons c rest ih =>
    obtain ⟨first, last, appended⟩ := ih
    by_cases marked : c = mark
    · refine ⟨[] :: first, last, fun tail absent => ?_⟩
      rw [cons_append, parts, if_pos marked, appended tail absent, cons_append]
    · cases first with
      | nil =>
        refine ⟨[], c :: last, fun tail absent => ?_⟩
        rw [cons_append, parts, if_neg marked, appended tail absent]
        rfl
      | cons part first =>
        refine ⟨(c :: part) :: first, last, fun tail absent => ?_⟩
        rw [cons_append, parts, if_neg marked, appended tail absent]
        rfl

end Text

namespace Path

def IsJar (path : String) : Prop := ∃ stem, path = stem ++ ".jar"

/-- An ending without a slash is the ending of the last part, which is no part if it is empty. -/
theorem exists_parts_append (stem : String) : ∃ folders name, (parts stem = folders ∨ parts stem = folders ++ [name]) ∧
      ∀ ending : String, ending ≠ "" → '/' ∉ ending.toList → parts (stem ++ ending) = folders ++ [name ++ ending] := by
  obtain ⟨first, last, appended⟩ := Text.exists_parts_append '/' stem.toList
  refine ⟨(first.filter (!·.isEmpty)).map String.ofList, String.ofList last, ?_, fun ending some noSlash => ?_⟩
  · have whole := appended [] not_mem_nil
    rw [append_nil, append_nil] at whole
    rw [parts, whole, filter_append, map_append]
    cases last with
    | nil => exact .inl (by simp)
    | cons => exact .inr rfl
  · have filled : (last ++ ending.toList).isEmpty = false := by simp [some]
    rw [parts, String.toList_append, appended _ noSlash, filter_append, map_append,
      filter_cons_of_pos (by simp [filled]), filter_nil, map_singleton, String.ofList_append,
      String.ofList_toList]

theorem isRelative_append {text : String} (some : text ≠ "") (ending : String) :
    isRelative (text ++ ending) = isRelative text := by
  have filled : text.toList ≠ [] := by simpa using some
  rw [isRelative, isRelative, startsWith, startsWith, String.toList_append,
    head?_append_of_ne_nil _ filled]

theorem jar_ne_empty (stem : String) : stem ++ ".jar" ≠ "" := by
  intro empty
  have lengths := congrArg String.length empty
  simp [String.length_append] at lengths

theorem turn_jar (place : Place) (name ending : String) (long : 2 < ending.length) :
    turn place (name ++ ending) = place ++ [name ++ ending] := by
  have longer : 2 < (name ++ ending).length := by
    rw [String.length_append]
    omega
  have notDot : name ++ ending ≠ "." := by
    intro dot
    rw [dot] at longer
    exact absurd longer (by decide)
  have notDots : name ++ ending ≠ ".." := by
    intro dots
    rw [dots] at longer
    exact absurd longer (by decide)
  rw [turn, if_neg notDot, if_neg notDots]

end Path

namespace FileTree

variable {path other : String}

theorem exists_spot_jar (tree : FileTree) (jar : IsJar path) :
    ∃ folder name, tree.spot path = folder ++ [name ++ ".jar"] ∧
      tree.spot (temporary path) = folder ++ [name ++ ".jar.tmp"] := by
  obtain ⟨stem, rfl⟩ := jar
  obtain ⟨folders, name, _, appended⟩ := exists_parts_append stem
  have started : tree.start (stem ++ ".jar" ++ ".tmp") = tree.start (stem ++ ".jar") := by
    rw [start, start, isRelative_append (jar_ne_empty stem)]
  have joined : stem ++ ".jar" ++ ".tmp" = stem ++ ".jar.tmp" := String.append_assoc ..
  refine ⟨folders.foldl turn (tree.start (stem ++ ".jar")), name, ?_, ?_⟩
  · rw [spot, appended ".jar" (by decide) (by decide), foldl_append, foldl_cons, foldl_nil, turn_jar _ _ _ (by decide)]
  · rw [temporary, spot, started, joined, appended ".jar.tmp" (by decide) (by decide), foldl_append,
      foldl_cons, foldl_nil, turn_jar _ _ _ (by decide)]

theorem spot_ne_own_temporary (tree : FileTree) (path : String) : tree.spot path ≠ tree.spot (temporary path) := by
  obtain ⟨folders, name, whole, appended⟩ := exists_parts_append path
  have started : tree.start (path ++ ".tmp") = tree.start path := by
    by_cases empty : path = ""
    · rw [empty]
      rfl
    · rw [start, start, isRelative_append empty]
  have draft : tree.spot (temporary path) = folders.foldl turn (tree.start path) ++ [name ++ ".tmp"] := by
    rw [temporary, spot, started, appended ".tmp" (by decide) (by decide), foldl_append, foldl_cons,
      foldl_nil, turn_jar _ _ _ (by decide)]
  rw [draft, spot]
  intro same
  rcases whole with whole | whole
  · rw [whole] at same
    simpa using congrArg length same
  · rw [whole, foldl_append, foldl_cons, foldl_nil, turn] at same
    split at same
    · simpa using congrArg length same
    split at same
    · have lengths := congrArg length same
      simp at lengths
    · have names : name = name ++ ".tmp" := by simpa using same
      have lengths := congrArg String.length names
      simp [String.length_append] at lengths

theorem spot_ne_temporary (tree : FileTree) (jar : IsJar path) (otherJar : IsJar other) :
    tree.spot path ≠ tree.spot (temporary other) := by
  obtain ⟨folder, name, placed, _⟩ := tree.exists_spot_jar jar
  obtain ⟨otherFolder, otherName, _, placedOther⟩ := tree.exists_spot_jar otherJar
  rw [placed, placedOther]
  intro same
  have names : name ++ ".jar" = otherName ++ ".jar.tmp" := by simpa using (append_inj' same rfl).2
  have characters := congrArg (fun text => text.toList.getLast?) names
  rw [String.toList_append, String.toList_append, getLast?_append_of_ne_nil _ (by decide),
    getLast?_append_of_ne_nil _ (by decide)] at characters
  exact absurd characters (by decide)

end FileTree

theorem isClassPath_append {ending : String} (some : ending.toList ≠ [])
    (last : ending.toList.getLast? ≠ ".class".toList.getLast?) (name : String) :
    isClassPath (name ++ ending) = false := by
  rw [isClassPath, stripEnd?, Option.isSome_map, Option.isSome_eq_false_iff, Option.isNone_iff_eq_none,
    Option.eq_none_iff_forall_ne_some]
  intro front stripped
  have split := congrArg getLast? (dropEnd?_eq_some.mp stripped)
  rw [String.toList_append, getLast?_append_of_ne_nil _ some,
    getLast?_append_of_ne_nil _ (by decide)] at split
  exact last split

namespace OutputCache

variable {cache : OutputCache} {role : String} {targets : List String}

theorem isJar_join_fileName (base : String) (identity : CacheIdentity) (role kind : String) :
    IsJar (join base (identity.fileName role kind)) := by
  rw [join]
  split
  · exact ⟨_, rfl⟩
  · split
    · exact ⟨base ++ (role ++ "-" ++ identity.versionText kind), String.append_assoc.symm⟩
    · exact ⟨base ++ "/" ++ (role ++ "-" ++ identity.versionText kind), String.append_assoc.symm⟩

theorem isJar_of_mem {output : OutputArchive}
    (listed : output ∈ cache.outputs role targets) : IsJar output.path := by
  induction targets with
  | nil => cases listed
  | cons target rest ih =>
    cases rest with
    | nil =>
      obtain rfl := mem_singleton.mp listed
      exact isJar_join_fileName ..
    | cons next rest =>
      rcases mem_cons.mp listed with rfl | later
      · exact isJar_join_fileName ..
      · exact ih later

@[simp] theorem map_target_outputs (targets : List String) :
    (cache.outputs role targets).map OutputArchive.target = targets := by
  induction targets with
  | nil => rfl
  | cons target rest ih =>
    cases rest with
    | nil => rfl
    | cons next rest => simp [outputs, ih]

@[simp] theorem length_outputs (targets : List String) : (cache.outputs role targets).length = targets.length := by
  rw [← length_map (f := OutputArchive.target), map_target_outputs]

theorem exists_mem_of_target (cache : OutputCache) (role : String) {target : String}
    (named : target ∈ targets) : ∃ output ∈ cache.outputs role targets, output.target = target := by
  have mapped : target ∈ (cache.outputs role targets).map OutputArchive.target := by rwa [map_target_outputs]
  exact mem_map.mp mapped

theorem exists_mem_outputs (filled : targets ≠ []) :
    ∃ output, output ∈ cache.outputs role targets := by
  apply exists_mem_of_length_pos
  rw [length_outputs]
  exact length_pos_iff.mpr filled

end OutputCache

end JarRemap
