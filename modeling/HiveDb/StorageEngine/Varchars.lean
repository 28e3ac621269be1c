import HiveDb.StorageEngine.Decoding

/-!
# Strings in one buffer

Every string takes as many bytes of the buffer as every other one: its length,
narrowed to two bytes, and a pointer to the block that holds so many of its
characters.  The blocks stay where they are while the store grows.
-/

namespace HiveDb

open HiveDb.Lib

/-- A buffer, the addresses of a string store, and the heap. -/
abbrev StringStore := List Cell × List Nat × Heap

namespace Varchar

/-- `varchar::size` -/
def size : Nat := DataTypes.findOffset .varchar

def serializeInto (store : StringStore) (str : Text) : StringStore :=
  serialize str store.1 store.2.1 store.2.2

/-- The strings one after the other. -/
def serializeAll (store : StringStore) (strs : List Text) : StringStore :=
  strs.foldl serializeInto store

variable {store : StringStore} {str : Text} {strs : List Text} {i : Nat}

theorem length_serializeInto (store : StringStore) (str : Text) :
    (serializeInto store str).1.length = store.1.length + size := by
  simp only [serializeInto, serialize, List.length_append, length_cellsOf, length_pointerCells]
  rfl

theorem length_serializeAll (store : StringStore) (strs : List Text) :
    (serializeAll store strs).1.length = store.1.length + strs.length * size := by
  induction strs generalizing store with
  | nil => simp [serializeAll]
  | cons str rest ih =>
      have hrest := ih (serializeInto store str)
      rw [length_serializeInto] at hrest
      rw [serializeAll, List.foldl_cons, List.length_cons, Nat.succ_mul, Nat.add_comm _ size,
        ← Nat.add_assoc]
      exact hrest

/-- What is in the buffer and on the heap stays there. -/
theorem serializeAll_grows (store : StringStore) (strs : List Text) :
    store.1 <+: (serializeAll store strs).1 ∧ store.2.2 <+: (serializeAll store strs).2.2 := by
  induction strs generalizing store with
  | nil => exact ⟨List.prefix_refl _, List.prefix_refl _⟩
  | cons str rest ih =>
      obtain ⟨hdata, hheap⟩ := ih (serializeInto store str)
      constructor
      · refine List.IsPrefix.trans ?_ hdata
        rw [serializeInto, serialize, List.append_assoc]
        exact List.prefix_append _ _
      · exact (List.prefix_append _ _).trans hheap

/-- Each string is read back as far as its stored length goes. -/
theorem deserialize_serializeAll (store : StringStore) (hi : strs[i]? = some str) :
    deserialize (serializeAll store strs).1 (store.1.length + i * size)
      (serializeAll store strs).2.2 = .ok (str.take (sizeOf str)) := by
  obtain ⟨hbound, hget⟩ := List.getElem?_eq_some_iff.mp hi
  have hstrs : strs = strs.take i ++ str :: strs.drop (i + 1) := by
    rw [← hget, List.getElem_cons_drop, List.take_append_drop]
  let done := serializeAll store (strs.take i)
  have hall : serializeAll store strs =
      serializeAll (serializeInto done str) (strs.drop (i + 1)) := by
    conv_lhs => rw [hstrs]
    exact List.foldl_append
  have hposition : done.1.length = store.1.length + i * size := by
    rw [length_serializeAll, List.length_take_of_le (Nat.le_of_lt hbound)]
  obtain ⟨hdata, hheap⟩ := serializeAll_grows (serializeInto done str) (strs.drop (i + 1))
  rw [hall, ← hposition]
  exact varchar_mono hdata hheap (varchar_append_take done.1 done.2.2 str done.2.1)

/-- The encoding of each string takes `varchar::size` bytes and is decoded to the string. -/
def RoundTrips (store : StringStore) (strs : List Text) : Prop :=
  ∀ i str, strs[i]? = some str →
    (serializeAll store (strs.take (i + 1))).1.length =
      (serializeAll store (strs.take i)).1.length + size ∧
    deserialize (serializeAll store strs).1 (serializeAll store (strs.take i)).1.length
      (serializeAll store strs).2.2 = .ok str

/-- No part of the string is cut off exactly when its length fits two bytes. -/
theorem take_sizeOf_eq_iff (str : Text) :
    str.take (sizeOf str) = str ↔ str.length < 65536 := by
  constructor
  · intro htake
    have hle := List.length_take_le (sizeOf str) str
    rw [htake] at hle
    exact Nat.lt_of_le_of_lt hle (Nat.mod_lt _ (by decide))
  · intro hlt
    exact List.take_of_length_le (Nat.le_of_eq (Nat.mod_eq_of_lt hlt).symm)

/-- A sequence of strings round-trips exactly when all of them are shorter than 65536. -/
theorem roundTrips_iff (store : StringStore) (strs : List Text) :
    RoundTrips store strs ↔ ∀ str ∈ strs, str.length < 65536 := by
  have hposition : ∀ i str, strs[i]? = some str →
      (serializeAll store (strs.take i)).1.length = store.1.length + i * size := by
    intro i str hi
    obtain ⟨hbound, _⟩ := List.getElem?_eq_some_iff.mp hi
    rw [length_serializeAll, List.length_take_of_le (Nat.le_of_lt hbound)]
  constructor
  · intro h str hmem
    obtain ⟨i, hi⟩ := List.mem_iff_getElem?.mp hmem
    have hread := (h i str hi).2
    rw [hposition i str hi, deserialize_serializeAll store hi] at hread
    exact (take_sizeOf_eq_iff str).mp (Except.ok.inj hread)
  · intro h i str hi
    obtain ⟨hbound, _⟩ := List.getElem?_eq_some_iff.mp hi
    constructor
    · rw [length_serializeAll, List.length_take_of_le hbound, hposition i str hi, Nat.succ_mul,
        Nat.add_assoc]
    · rw [hposition i str hi, deserialize_serializeAll store hi,
        (take_sizeOf_eq_iff str).mpr (h str (List.mem_of_getElem? hi))]

/-- A string of 65536 characters comes back empty. -/
theorem long_string_lost : ¬ ∀ store strs, RoundTrips store strs := by
  intro h
  let long : Text := List.replicate 65536 'a'
  have hshort := (h ([], [], []) [long] 0 long rfl).2
  rw [show (serializeAll ([], [], []) ([long].take 0)).1.length =
      (([], [], []) : StringStore).1.length + 0 * size from rfl,
    deserialize_serializeAll _ (show [long][0]? = some long from rfl)] at hshort
  have hlength := (take_sizeOf_eq_iff long).mp (Except.ok.inj hshort)
  rw [List.length_replicate] at hlength
  exact Nat.lt_irrefl _ hlength

end Varchar

end HiveDb
