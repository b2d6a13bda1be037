/-!
# Maps in order of insertion

The entries stand in the order in which their keys were first inserted. Inserting a key again replaces
its value and keeps its place. Two maps have the same entries if they agree on every key, whatever the
order.
-/
namespace JarRemap

open List

/-- A list of entries with different keys. -/
structure OrderedMap (κ ν : Type) where
  entries : List (κ × ν)
  distinct : (entries.map Prod.fst).Nodup

namespace OrderedMap

variable {κ ν : Type} [DecidableEq κ]

def lookup (key : κ) : List (κ × ν) → Option ν
  | [] => none
  | (k, v) :: rest => if k = key then some v else lookup key rest

/-- The entries with the value of the key replaced, or with an entry for it at the end. -/
def insertEntry (key : κ) (value : ν) : List (κ × ν) → List (κ × ν)
  | [] => [(key, value)]
  | (k, v) :: rest =>
    if k = key then (k, value) :: rest else (k, v) :: insertEntry key value rest

/-- Inserting leaves every key that was there, and adds at most the one inserted. -/
theorem mem_keys_insertEntry {key k : κ} {value : ν} {entries : List (κ × ν)}
    (member : k ∈ (insertEntry key value entries).map Prod.fst) :
    k = key ∨ k ∈ entries.map Prod.fst := by
  induction entries with
  | nil => simpa [insertEntry] using member
  | cons entry rest ih =>
    obtain ⟨head, stored⟩ := entry
    by_cases same : head = key
    · rw [insertEntry, if_pos same] at member
      exact .inr member
    · rw [insertEntry, if_neg same] at member
      rcases mem_cons.mp member with here | later
      · exact .inr (mem_cons.mpr (.inl here))
      · rcases ih later with found | found
        · exact .inl found
        · exact .inr (mem_cons.mpr (.inr found))

/-- Inserting keeps the keys different. -/
theorem nodup_insertEntry {key : κ} {value : ν} {entries : List (κ × ν)}
    (distinct : (entries.map Prod.fst).Nodup) :
    ((insertEntry key value entries).map Prod.fst).Nodup := by
  induction entries with
  | nil => simp [insertEntry]
  | cons entry rest ih =>
    obtain ⟨head, stored⟩ := entry
    rw [map_cons, nodup_cons] at distinct
    by_cases same : head = key
    · rw [insertEntry, if_pos same, map_cons, nodup_cons]
      exact distinct
    · rw [insertEntry, if_neg same, map_cons, nodup_cons]
      refine ⟨fun member => ?_, ih distinct.2⟩
      rcases mem_keys_insertEntry member with found | found
      · exact same found
      · exact distinct.1 found

def empty : OrderedMap κ ν := ⟨[], nodup_nil⟩

instance : EmptyCollection (OrderedMap κ ν) := ⟨empty⟩

instance : Inhabited (OrderedMap κ ν) := ⟨empty⟩

def get? (map : OrderedMap κ ν) (key : κ) : Option ν := lookup key map.entries

def contains (map : OrderedMap κ ν) (key : κ) : Bool := (map.get? key).isSome

def insert (map : OrderedMap κ ν) (key : κ) (value : ν) : OrderedMap κ ν :=
  ⟨insertEntry key value map.entries, nodup_insertEntry map.distinct⟩

/-- The map in which the value of the key is changed by `change`, starting from `initial` if the key has
no value yet. -/
def update (map : OrderedMap κ ν) (key : κ) (initial : ν) (change : ν → ν) : OrderedMap κ ν :=
  map.insert key (change ((map.get? key).getD initial))

omit [DecidableEq κ] in
/-- Removing entries keeps the keys different. -/
theorem nodup_filter {entries : List (κ × ν)} (keep : κ × ν → Bool)
    (distinct : (entries.map Prod.fst).Nodup) : ((entries.filter keep).map Prod.fst).Nodup :=
  distinct.sublist (filter_sublist.map Prod.fst)

def erase (map : OrderedMap κ ν) (key : κ) : OrderedMap κ ν :=
  ⟨map.entries.filter fun entry => entry.1 ≠ key, nodup_filter _ map.distinct⟩

def keys (map : OrderedMap κ ν) : List κ := map.entries.map Prod.fst

def values (map : OrderedMap κ ν) : List ν := map.entries.map Prod.snd

def size (map : OrderedMap κ ν) : Nat := map.entries.length

def isEmpty (map : OrderedMap κ ν) : Bool := map.entries.isEmpty

/-- Whether two maps have the same keys and, at each key, values that `same` accepts. -/
def sameEntries (same : ν → ν → Bool) (left right : OrderedMap κ ν) : Bool :=
  left.size == right.size && left.entries.all fun (key, value) =>
    match right.get? key with
    | some other => same value other
    | none => false

end OrderedMap

end JarRemap
