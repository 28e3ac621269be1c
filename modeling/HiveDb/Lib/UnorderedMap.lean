import Mathlib.Data.List.AList

/-!
# Hash tables

A hash table is a map together with an order in which a loop visits its
entries.  An insertion may change that order in any way, an erasure keeps the
order of the entries that stay.  The order is a parameter: what is proved for
every `IterationOrder` does not depend on it.
-/

namespace HiveDb.Lib

variable {κ ν : Type}

/-- How each insertion rearranges the entries, the insertions being numbered. -/
structure IterationOrder (κ ν : Type) where
  arrange : Nat → List (Σ _ : κ, ν) → List (Σ _ : κ, ν)
  perm : ∀ insertion entries, (arrange insertion entries).Perm entries

/-- The order that visits the newest entry first. -/
def IterationOrder.newestFirst : IterationOrder κ ν :=
  ⟨fun _ entries => entries, fun _ entries => .refl entries⟩

/-- The order that visits one key, if it is there, before all others. -/
def IterationOrder.keyFirst [DecidableEq κ] (key : κ) : IterationOrder κ ν :=
  ⟨fun _ entries => entries.filter (·.1 = key) ++ entries.filter (¬ ·.1 = key),
    fun _ entries => by simpa using List.filter_append_perm (fun entry => entry.1 = key) entries⟩

structure UnorderedMap (κ ν : Type) where
  order : IterationOrder κ ν
  insertions : Nat
  entries : AList fun _ : κ => ν

namespace UnorderedMap

/-- The entries as a loop visits them. -/
def pairs (map : UnorderedMap κ ν) : List (κ × ν) :=
  map.entries.entries.map fun entry => (entry.1, entry.2)

def keys (map : UnorderedMap κ ν) : List κ := map.pairs.map Prod.fst

def values (map : UnorderedMap κ ν) : List ν := map.pairs.map Prod.snd

def size (map : UnorderedMap κ ν) : Nat := map.pairs.length

def empty (order : IterationOrder κ ν) : UnorderedMap κ ν := ⟨order, 0, ∅⟩

theorem size_eq_length_values (map : UnorderedMap κ ν) : map.size = map.values.length := by
  rw [size, values, List.length_map]

theorem keys_nodup (map : UnorderedMap κ ν) : (map.pairs.map Prod.fst).Nodup := by
  rw [pairs, List.map_map]
  exact map.entries.keys_nodup

variable [DecidableEq κ]

def find? (map : UnorderedMap κ ν) (key : κ) : Option ν := map.entries.lookup key

/-- `map[key] = value` -/
def assign (map : UnorderedMap κ ν) (key : κ) (value : ν) : UnorderedMap κ ν :=
  { map with
    insertions := map.insertions + 1
    entries :=
      ⟨map.order.arrange map.insertions (map.entries.insert key value).entries,
        (List.perm_nodupKeys (map.order.perm _ _)).mpr (map.entries.insert key value).nodupKeys⟩ }

/-- `map.emplace(key, value)`, which leaves a key alone that is there already. -/
def emplace (map : UnorderedMap κ ν) (key : κ) (value : ν) : UnorderedMap κ ν :=
  if (map.find? key).isSome then map else map.assign key value

def erase (map : UnorderedMap κ ν) (key : κ) : UnorderedMap κ ν :=
  { map with entries := map.entries.erase key }

/-- Change the value of a key in place. -/
def update (map : UnorderedMap κ ν) (key : κ) (change : ν → ν) : UnorderedMap κ ν :=
  { map with
    entries := ⟨map.entries.entries.map fun entry =>
      ⟨entry.1, if entry.1 = key then change entry.2 else entry.2⟩, by
        have hkeys := map.entries.nodupKeys
        rw [List.NodupKeys, List.keys] at hkeys ⊢
        rwa [List.map_map]⟩ }

/-- `std::find_if` over the entries. -/
def findIf? (map : UnorderedMap κ ν) (holds : κ × ν → Bool) : Option (κ × ν) :=
  map.pairs.find? holds

variable {map : UnorderedMap κ ν} {key other : κ} {value : ν}

@[simp] theorem find?_empty (order : IterationOrder κ ν) (key : κ) :
    (empty order).find? key = none := AList.lookup_empty key

theorem mem_pairs_iff : (key, value) ∈ map.pairs ↔ map.find? key = some value := by
  constructor
  · intro hmem
    obtain ⟨⟨key', value'⟩, hentry, heq⟩ := List.mem_map.mp hmem
    cases heq
    exact AList.mem_lookup_iff.mpr hentry
  · intro hfind
    exact List.mem_map.mpr ⟨⟨key, value⟩, AList.mem_lookup_iff.mp hfind, rfl⟩

theorem mem_keys_iff : key ∈ map.keys ↔ ∃ value, map.find? key = some value := by
  constructor
  · intro hkey
    obtain ⟨⟨_, value⟩, hpair, rfl⟩ := List.mem_map.mp hkey
    exact ⟨value, mem_pairs_iff.mp hpair⟩
  · rintro ⟨value, hfind⟩
    exact List.mem_map.mpr ⟨(key, value), mem_pairs_iff.mpr hfind, rfl⟩

theorem mem_values_of_find? (h : map.find? key = some value) : value ∈ map.values :=
  List.mem_map.mpr ⟨(key, value), mem_pairs_iff.mpr h, rfl⟩

/-! ## Assignment -/

theorem assign_entries_perm (map : UnorderedMap κ ν) (key : κ) (value : ν) :
    (map.assign key value).entries.entries.Perm (map.entries.insert key value).entries :=
  map.order.perm _ _

@[simp] theorem find?_assign_self : (map.assign key value).find? key = some value := by
  rw [find?, AList.perm_lookup (map.assign_entries_perm key value)]
  exact AList.lookup_insert _

theorem find?_assign_ne (hne : other ≠ key) :
    (map.assign key value).find? other = map.find? other := by
  rw [find?, AList.perm_lookup (map.assign_entries_perm key value)]
  exact AList.lookup_insert_ne hne

theorem values_assign_perm (hnone : map.find? key = none) (value : ν) :
    (map.assign key value).values.Perm (value :: map.values) := by
  have hperm := map.assign_entries_perm key value
  rw [AList.entries_insert_of_notMem (AList.lookup_eq_none.mp hnone)] at hperm
  exact (hperm.map _).map _

/-- Where one key is visited first, it is so after every assignment. -/
theorem keys_assign_keyFirst {first : κ} (horder : map.order = .keyFirst first)
    (hmem : first ∈ (map.assign key value).keys) :
    (map.assign key value).keys.head? = some first := by
  obtain ⟨entry, hentry, hkey⟩ : ∃ entry ∈ (map.entries.insert key value).entries,
      entry.1 = first := by
    obtain ⟨_, hpair, rfl⟩ := List.mem_map.mp hmem
    obtain ⟨entry, hentry, rfl⟩ := List.mem_map.mp hpair
    exact ⟨entry, (map.assign_entries_perm key value).mem_iff.mp hentry, rfl⟩
  have hkeys : (map.assign key value).keys =
      (((map.entries.insert key value).entries.filter (·.1 = first)) ++
        ((map.entries.insert key value).entries.filter (¬ ·.1 = first))).map Sigma.fst := by
    simp only [keys, pairs, List.map_map, assign, horder, IterationOrder.keyFirst]
    rfl
  have hfilter : entry ∈ (map.entries.insert key value).entries.filter (·.1 = first) :=
    List.mem_filter.mpr ⟨hentry, by simpa using hkey⟩
  cases hsplit : (map.entries.insert key value).entries.filter (·.1 = first) with
  | nil =>
      rw [hsplit] at hfilter
      cases hfilter
  | cons head rest =>
      have hhead : head ∈ (map.entries.insert key value).entries.filter (·.1 = first) := by
        rw [hsplit]
        exact List.mem_cons_self
      rw [hkeys, hsplit]
      simpa using (List.mem_filter.mp hhead).2

/-! ## Insertion of a new key -/

theorem emplace_of_none (hnone : map.find? key = none) :
    map.emplace key value = map.assign key value := by
  rw [emplace, hnone]
  rfl

theorem emplace_of_some (hfind : map.find? key = some value) (other : ν) :
    map.emplace key other = map := by
  rw [emplace, hfind]
  rfl

theorem find?_emplace_self :
    (map.emplace key value).find? key = some ((map.find? key).getD value) := by
  cases hfind : map.find? key with
  | none => rw [emplace_of_none hfind, find?_assign_self, Option.getD_none]
  | some found => rw [emplace_of_some hfind, hfind, Option.getD_some]

theorem find?_emplace_ne (hne : other ≠ key) :
    (map.emplace key value).find? other = map.find? other := by
  cases hfind : map.find? key with
  | none => rw [emplace_of_none hfind, find?_assign_ne hne]
  | some found => rw [emplace_of_some hfind]

/-! ## Erasure -/

@[simp] theorem find?_erase_self : (map.erase key).find? key = none := AList.lookup_erase key _

theorem find?_erase_ne (hne : other ≠ key) : (map.erase key).find? other = map.find? other :=
  AList.lookup_erase_ne hne

theorem find?_of_find?_erase (h : (map.erase key).find? other = some value) :
    other ≠ key ∧ map.find? other = some value := by
  by_cases heq : other = key
  · rw [heq, find?_erase_self] at h
    cases h
  · exact ⟨heq, (find?_erase_ne heq).symm.trans h⟩

theorem values_erase_perm (hfind : map.find? key = some value) :
    map.values.Perm (value :: (map.erase key).values) := by
  have hinsert : map.entries.entries.Perm (⟨key, value⟩ :: (map.entries.erase key).entries) := by
    obtain ⟨value', before, after, _, heq, herase⟩ :=
      List.exists_of_kerase (a := key) (l := map.entries.entries)
        (List.mem_map.mpr ⟨⟨key, value⟩, AList.mem_lookup_iff.mp hfind, rfl⟩)
    have hmem : (⟨key, value'⟩ : Σ _ : κ, ν) ∈ map.entries.entries := by
      rw [heq]
      simp
    cases hfind.symm.trans (AList.mem_lookup_iff.mpr hmem)
    have hentries : (map.entries.erase key).entries = before ++ after := herase
    rw [hentries, heq]
    exact List.perm_middle
  exact (hinsert.map _).map _

/-- An assignment puts the value in the place of what the key had before. -/
theorem values_assign_erase_perm (map : UnorderedMap κ ν) (key : κ) (value : ν) :
    (map.assign key value).values.Perm (value :: (map.erase key).values) :=
  ((map.assign_entries_perm key value).map _).map _

/-- Assigning the value that a key has keeps the values. -/
theorem values_assign_same_perm (hfind : map.find? key = some value) :
    (map.assign key value).values.Perm map.values :=
  (map.values_assign_erase_perm key value).trans (values_erase_perm hfind).symm

/-! ## Sizes -/

theorem size_assign_of_none (hnone : map.find? key = none) (value : ν) :
    (map.assign key value).size = map.size + 1 := by
  rw [size_eq_length_values, size_eq_length_values, (values_assign_perm hnone value).length_eq]
  rfl

theorem size_assign_of_some {old : ν} (hfind : map.find? key = some old) (value : ν) :
    (map.assign key value).size = map.size := by
  rw [size_eq_length_values, size_eq_length_values, (values_erase_perm hfind).length_eq,
    (map.values_assign_erase_perm key value).length_eq]
  rfl

theorem size_le_assign : map.size ≤ (map.assign key value).size := by
  rw [size_eq_length_values, size_eq_length_values]
  cases hfind : map.find? key with
  | none =>
      rw [(values_assign_perm hfind value).length_eq]
      exact Nat.le_succ _
  | some old =>
      rw [(values_erase_perm hfind).length_eq, (map.values_assign_erase_perm key value).length_eq]
      exact Nat.le_refl _

theorem size_le_emplace : map.size ≤ (map.emplace key value).size := by
  unfold emplace
  split
  · exact Nat.le_refl _
  · exact size_le_assign

/-! ## Changing a value in place -/

theorem pairs_update (map : UnorderedMap κ ν) (key : κ) (change : ν → ν) :
    (map.update key change).pairs =
      map.pairs.map fun pair => (pair.1, if pair.1 = key then change pair.2 else pair.2) := by
  simp only [pairs, update, List.map_map, Function.comp_def]

@[simp] theorem keys_update (map : UnorderedMap κ ν) (key : κ) (change : ν → ν) :
    (map.update key change).keys = map.keys := by
  rw [keys, pairs_update, List.map_map]
  rfl

theorem find?_update_self (hfind : map.find? key = some value) (change : ν → ν) :
    (map.update key change).find? key = some (change value) := by
  refine mem_pairs_iff.mp ?_
  rw [pairs_update]
  refine List.mem_map.mpr ⟨(key, value), mem_pairs_iff.mpr hfind, ?_⟩
  rw [if_pos rfl]

theorem find?_update_ne (hne : other ≠ key) (change : ν → ν) :
    (map.update key change).find? other = map.find? other := by
  refine Option.ext fun found => ?_
  rw [← mem_pairs_iff, ← mem_pairs_iff, pairs_update]
  constructor
  · intro hmem
    obtain ⟨pair, hpair, heq⟩ := List.mem_map.mp hmem
    cases heq
    rwa [if_neg hne]
  · intro hmem
    refine List.mem_map.mpr ⟨(other, found), hmem, ?_⟩
    rw [if_neg hne]

/-! ## Searching by value -/

/-- With distinct values the entry that holds a value is found by it. -/
theorem findIf?_value [DecidableEq ν] (hnodup : map.values.Nodup)
    (hfind : map.find? key = some value) :
    map.findIf? (fun pair => pair.2 = value) = some (key, value) := by
  have hmem := mem_pairs_iff.mpr hfind
  cases hfound : map.findIf? (fun pair => pair.2 = value) with
  | none =>
      have hnone := List.find?_eq_none.mp hfound _ hmem
      simp at hnone
  | some pair =>
      have hpair : pair ∈ map.pairs := List.mem_of_find?_eq_some hfound
      have hvalue : pair.2 = value := by simpa using List.find?_some hfound
      exact congrArg some (List.inj_on_of_nodup_map hnodup hpair hmem hvalue)

end UnorderedMap

end HiveDb.Lib
