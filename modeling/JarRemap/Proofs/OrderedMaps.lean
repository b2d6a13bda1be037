import JarRemap.OrderedMap
import Mathlib

/-!
# What maps answer

A map is known by its answers: inserting changes the answer at one key and no other, and the entries of a
map are the answers it gives. Two maps that answer alike have equally many entries. A new key goes to the end,
and a value that is there already is written over itself.
-/
namespace JarRemap

open List

namespace OrderedMap

variable {κ ν : Type} [DecidableEq κ] {map : OrderedMap κ ν} {key : κ} {value : ν} {entries : List (κ × ν)}

theorem lookup_insertEntry (key other : κ) (value : ν) (entries : List (κ × ν)) :
    lookup other (insertEntry key value entries) = if key = other then some value else lookup other entries := by
  induction entries with
  | nil => rfl
  | cons entry rest ih =>
    obtain ⟨head, stored⟩ := entry
    by_cases replaced : head = key
    · subst replaced
      by_cases found : head = other <;> simp [insertEntry, lookup, found]
    · by_cases found : head = other
      · subst found
        simp [insertEntry, lookup, replaced, Ne.symm replaced]
      · simp [insertEntry, lookup, replaced, found, ih]

theorem lookup_eq_some (distinct : (entries.map Prod.fst).Nodup) :
    lookup key entries = some value ↔ (key, value) ∈ entries := by
  induction entries with
  | nil => simp [lookup]
  | cons entry rest ih =>
    obtain ⟨head, stored⟩ := entry
    obtain ⟨fresh, distinct⟩ := nodup_cons.mp distinct
    by_cases found : head = key
    · subst found
      have absent : (head, value) ∉ rest := fun later => fresh (mem_map.mpr ⟨_, later, rfl⟩)
      simp [lookup, absent, eq_comm]
    · simp [lookup, found, Ne.symm found, ih distinct]

@[simp] theorem get?_empty (key : κ) : (∅ : OrderedMap κ ν).get? key = none := rfl

@[simp] theorem get?_insert (map : OrderedMap κ ν) (key other : κ) (value : ν) :
    (map.insert key value).get? other = if key = other then some value else map.get? other :=
  lookup_insertEntry key other value map.entries

theorem forall_get?_insert {Holds : κ → ν → Prop} (here : Holds key value)
    (before : ∀ other stored, map.get? other = some stored → Holds other stored) :
    ∀ other stored, (map.insert key value).get? other = some stored → Holds other stored := by
  intro other stored held
  by_cases same : key = other
  · obtain rfl : value = stored := by simpa [same] using held
    exact same ▸ here
  · exact before other stored (by simpa [same] using held)

theorem lookup_filter_ne (key other : κ) (entries : List (κ × ν)) :
    lookup other (entries.filter fun entry => entry.1 ≠ key) = if key = other then none else lookup other entries := by
  induction entries with
  | nil => simp [lookup]
  | cons entry rest ih =>
    obtain ⟨head, stored⟩ := entry
    by_cases removed : head = key
    · subst removed
      rw [filter_cons_of_neg (by simp), ih]
      by_cases found : head = other <;> simp [lookup, found]
    · rw [filter_cons_of_pos (by simpa using removed), lookup, ih, lookup]
      by_cases found : head = other
      · subst found
        simp [Ne.symm removed]
      · simp [found]

@[simp] theorem get?_erase (map : OrderedMap κ ν) (key other : κ) :
    (map.erase key).get? other = if key = other then none else map.get? other :=
  lookup_filter_ne key other map.entries

theorem mem_entries : (key, value) ∈ map.entries ↔ map.get? key = some value :=
  (lookup_eq_some map.distinct).symm

theorem get?_eq_none : map.get? key = none ↔ key ∉ map.keys := by
  rw [Option.eq_none_iff_forall_ne_some]
  simp [keys, mem_entries]

theorem mem_values : value ∈ map.values ↔ ∃ key, map.get? key = some value := by
  simp [values, ← mem_entries]

section entries

omit [DecidableEq κ] in
theorem ext_entries {left right : OrderedMap κ ν} (same : left.entries = right.entries) : left = right := by
  cases left
  cases right
  cases same
  rfl

theorem insertEntry_of_new (new : key ∉ entries.map Prod.fst) :
    insertEntry key value entries = entries ++ [(key, value)] := by
  induction entries with
  | nil => rfl
  | cons entry rest ih =>
    obtain ⟨head, stored⟩ := entry
    rw [map_cons, mem_cons, not_or] at new
    have other : head ≠ key := fun same => new.1 same.symm
    rw [insertEntry, if_neg other, ih new.2, cons_append]

theorem insertEntry_of_held (held : lookup key entries = some value) : insertEntry key value entries = entries := by
  induction entries with
  | nil => cases held
  | cons entry rest ih =>
    obtain ⟨head, stored⟩ := entry
    by_cases found : head = key
    · rw [lookup, if_pos found, Option.some.injEq] at held
      rw [insertEntry, if_pos found, held]
    · rw [lookup, if_neg found] at held
      rw [insertEntry, if_neg found, ih held]

theorem insertEntry_insertEntry (key : κ) (first second : ν) (entries : List (κ × ν)) :
    insertEntry key second (insertEntry key first entries) = insertEntry key second entries := by
  induction entries with
  | nil => simp [insertEntry]
  | cons entry rest ih =>
    obtain ⟨head, stored⟩ := entry
    by_cases found : head = key
    · simp [insertEntry, found]
    · simp [insertEntry, found, ih]

theorem entries_insert_of_new (new : map.get? key = none) :
    (map.insert key value).entries = map.entries ++ [(key, value)] :=
  insertEntry_of_new (get?_eq_none.mp new)

theorem insert_of_held (held : map.get? key = some value) : map.insert key value = map :=
  ext_entries (insertEntry_of_held held)

@[simp] theorem insert_insert (map : OrderedMap κ ν) (key : κ) (first second : ν) :
    (map.insert key first).insert key second = map.insert key second :=
  ext_entries (insertEntry_insertEntry key first second map.entries)

end entries

section keyed

variable {key? : ν → Option κ} {left right : OrderedMap κ ν}

/-- The key of a value can be told from the value. -/
def Keyed (key? : ν → Option κ) (map : OrderedMap κ ν) : Prop :=
  ∀ key value, map.get? key = some value → key? value = some key

theorem Keyed.map_values (keyed : left.Keyed key?) : left.values.map key? = left.keys.map some := by
  rw [values, keys, map_map, map_map]
  exact map_congr_left fun entry listed => keyed _ _ (mem_entries.mp listed)

theorem Keyed.eq_of_values (leftKeyed : left.Keyed key?) (rightKeyed : right.Keyed key?)
    (same : left.values = right.values) : left = right := by
  have sameKeys : left.keys = right.keys := by
    have listed : left.keys.map some = right.keys.map some := by
      rw [← leftKeyed.map_values, ← rightKeyed.map_values, same]
    exact map_injective_iff.mpr (Option.some_injective κ) listed
  apply ext_entries
  rw [← zip_unzip left.entries, ← zip_unzip right.entries, unzip_eq_map, unzip_eq_map]
  exact congrArg₂ List.zip sameKeys same

theorem Keyed.get?_next (leftKeyed : left.Keyed key?) (rightKeyed : right.Keyed key?) {later : List ν}
    (ahead : left.values ++ value :: later = right.values) (next : key? value = some key) : left.get? key = none := by
  have distinct : (right.values.map key?).Nodup := by
    rw [rightKeyed.map_values]
    exact right.distinct.map (Option.some_injective κ)
  rw [← ahead, map_append, map_cons, leftKeyed.map_values, next] at distinct
  rw [get?_eq_none]
  intro held
  exact (nodup_append.mp distinct).2.2 _ (mem_map_of_mem held) _ mem_cons_self rfl

theorem values_insert_of_new (new : map.get? key = none) : (map.insert key value).values = map.values ++ [value] := by
  rw [values, entries_insert_of_new new, map_append]
  rfl

end keyed

section same

variable {same : ν → ν → Bool} {left right : OrderedMap κ ν}

theorem mem_keys : key ∈ map.keys ↔ (map.get? key).isSome := by
  rw [Option.isSome_iff_ne_none, ne_eq, get?_eq_none, not_not]

omit [DecidableEq κ] in
theorem size_eq_of_keys (same : ∀ key, key ∈ left.keys ↔ key ∈ right.keys) : left.size = right.size := by
  have permuted : left.keys.Perm right.keys := (perm_ext_iff_of_nodup left.distinct right.distinct).mpr same
  simpa [keys, size] using permuted.length_eq

omit [DecidableEq κ] in
theorem mem_keys_of_size (size : left.size = right.size) (included : ∀ key ∈ left.keys, key ∈ right.keys)
    (held : key ∈ right.keys) : key ∈ left.keys := by
  have bound : right.keys.length ≤ left.keys.length := by
    simpa [keys, OrderedMap.size] using size.ge
  have permuted : left.keys.Perm right.keys := (left.distinct.subperm included).perm_of_length_le bound
  exact permuted.mem_iff.mpr held

/-- Two maps have the same entries if they answer alike for every key. -/
theorem sameEntries_iff : left.sameEntries same right ↔
      ∀ key, Option.Rel (fun value other => same value other) (left.get? key) (right.get? key) := by
  simp only [sameEntries, Bool.and_eq_true, beq_iff_eq, all_eq_true, Prod.forall, mem_entries]
  constructor
  · rintro ⟨size, matched⟩ key
    have included : ∀ key ∈ left.keys, key ∈ right.keys := by
      intro key held
      obtain ⟨value, found⟩ := Option.isSome_iff_exists.mp (mem_keys.mp held)
      have other := matched key value found
      rw [mem_keys]
      cases answer : right.get? key with
      | none => simp [answer] at other
      | some _ => rfl
    cases found : left.get? key with
    | some value =>
      have other := matched key value found
      cases answer : right.get? key with
      | none => simp [answer] at other
      | some stored =>
        rw [answer] at other
        exact .some other
    | none =>
      have missing : key ∉ right.keys := fun held => get?_eq_none.mp found (mem_keys_of_size size included held)
      rw [get?_eq_none.mpr missing]
      exact .none
  · intro related
    refine ⟨size_eq_of_keys fun key => ?_, fun key value found => ?_⟩
    · rw [mem_keys, mem_keys]
      have answer := related key
      cases found : left.get? key <;> cases hit : right.get? key <;> simp_all
    · have answer := related key
      rw [found] at answer
      cases hit : right.get? key with
      | none => simp [hit] at answer
      | some other =>
        rw [hit, Option.rel_some_some] at answer
        exact answer

theorem sameEntries_beq_iff [DecidableEq ν] :
    left.sameEntries (· == ·) right ↔ ∀ key, left.get? key = right.get? key := by
  rw [sameEntries_iff]
  refine forall_congr' fun key => ?_
  cases left.get? key <;> cases right.get? key <;> simp

end same

end OrderedMap

end JarRemap
