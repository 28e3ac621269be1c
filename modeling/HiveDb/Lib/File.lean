import Mathlib.Tactic.Common

/-!
# Files and streams

A file is a finite sequence of bytes that can be resized; space that has never
been written reads as zero.  A stream on a file has a position and a failure
flag: a read that finds too few bytes sets the flag, and while it is set the
operations of the stream do nothing.
-/

namespace HiveDb.Lib

/-- The bytes of a file; there are none from `size` on. -/
structure File where
  size : Nat
  bytes : Nat → UInt8
  bytes_past : ∀ position, size ≤ position → bytes position = 0

namespace File

def empty : File := ⟨0, fun _ => 0, fun _ _ => rfl⟩

/-- Cut the file off, or extend it with zeros. -/
def resize (file : File) (size : Nat) : File where
  size := size
  bytes position := if position < size then file.bytes position else 0
  bytes_past _ hpast := if_neg (Nat.not_lt.mpr hpast)

/-- Write a block of bytes; a gap before it is filled with zeros. -/
def write {n : Nat} (file : File) (offset : Nat) (data : Fin n → UInt8) : File where
  size := max file.size (offset + n)
  bytes position :=
    if h : offset ≤ position ∧ position - offset < n then data ⟨position - offset, h.2⟩
    else file.bytes position
  bytes_past position hpast := by
    have hend := Nat.le_trans (Nat.le_max_right _ _) hpast
    rw [dif_neg (by omega)]
    exact file.bytes_past position (Nat.le_trans (Nat.le_max_left _ _) hpast)

/-- The file holds the block at the offset. -/
structure Holds {n : Nat} (file : File) (offset : Nat) (data : Fin n → UInt8) : Prop where
  inside : offset + n ≤ file.size
  bytes_eq : ∀ i : Fin n, file.bytes (offset + i) = data i

variable {n : Nat} {file : File} {offset : Nat} {data : Fin n → UInt8}

theorem holds_write (file : File) (offset : Nat) (data : Fin n → UInt8) :
    (file.write offset data).Holds offset data where
  inside := Nat.le_max_right _ _
  bytes_eq i := by
    have hsub : offset + i - offset = i := Nat.add_sub_cancel_left offset i
    have hinside : offset ≤ offset + i ∧ offset + i - offset < n :=
      ⟨Nat.le_add_right _ _, hsub.symm ▸ i.isLt⟩
    exact (dif_pos hinside).trans (congrArg data (Fin.ext hsub))

/-- A block that the written one does not overlap stays. -/
theorem Holds.write_disjoint (h : file.Holds offset data) {m target : Nat}
    {other : Fin m → UInt8} (hdisjoint : offset + n ≤ target ∨ target + m ≤ offset) :
    (file.write target other).Holds offset data where
  inside := Nat.le_trans h.inside (Nat.le_max_left _ _)
  bytes_eq i := by
    have hoff : ¬ (target ≤ offset + i ∧ offset + i - target < m) := by
      have hi := i.isLt
      omega
    exact (dif_neg hoff).trans (h.bytes_eq i)

/-- A block stays unless the file is cut off below its end. -/
theorem Holds.resize (h : file.Holds offset data) {size : Nat} (hsize : offset + n ≤ size) :
    (file.resize size).Holds offset data where
  inside := hsize
  bytes_eq i := by
    have hinside : offset + i < size := by
      have hi := i.isLt
      omega
    exact (if_pos hinside).trans (h.bytes_eq i)

end File

/-! ## Streams -/

structure FileStream where
  file : File
  position : Nat
  failed : Bool

namespace FileStream

variable {n : Nat}

/-- `std::filesystem::resize_file`, which the stream is not told about. -/
def resizeFile (stream : FileStream) (size : Nat) : FileStream :=
  { stream with file := stream.file.resize size }

def seekg (stream : FileStream) (offset : Nat) : FileStream :=
  if stream.failed then stream else { stream with position := offset }

def write (stream : FileStream) (data : Fin n → UInt8) : FileStream :=
  if stream.failed then stream
  else { stream with
    file := stream.file.write stream.position data
    position := stream.position + n }

/-- `gcount()` after a read of `n` bytes. -/
def readCount (stream : FileStream) (n : Nat) : Nat :=
  if stream.failed then 0 else min n (stream.file.size - stream.position)

/-- Overwrite the front of the buffer with what can be read. -/
def readInto (stream : FileStream) (buffer : Fin n → UInt8) : Fin n → UInt8 := fun i =>
  if i < stream.readCount n then stream.file.bytes (stream.position + i) else buffer i

/-- The stream after a read of `n` bytes. -/
def afterRead (stream : FileStream) (n : Nat) : FileStream :=
  { stream with
    position := stream.position + stream.readCount n
    failed := stream.failed || decide (stream.readCount n < n) }

variable {stream : FileStream} {offset : Nat} {data : Fin n → UInt8}

@[simp] theorem seekg_file : (stream.seekg offset).file = stream.file := by
  unfold seekg
  split <;> rfl

@[simp] theorem afterRead_file : (stream.afterRead n).file = stream.file := rfl

theorem size_le_write : stream.file.size ≤ (stream.write data).file.size := by
  unfold write
  split
  · exact Nat.le_refl _
  · exact Nat.le_max_left _ _

theorem seekg_of_working (hstream : stream.failed = false) (offset : Nat) :
    stream.seekg offset = { stream with position := offset } := by
  rw [seekg, hstream, if_neg Bool.false_ne_true]

theorem write_of_working (hstream : stream.failed = false) (data : Fin n → UInt8) :
    stream.write data = { stream with
      file := stream.file.write stream.position data
      position := stream.position + n } := by
  rw [write, hstream, if_neg Bool.false_ne_true]

/-- A block the file holds is read in full. -/
theorem readCount_of_inside (hstream : stream.failed = false)
    (hinside : stream.position + n ≤ stream.file.size) : stream.readCount n = n := by
  rw [readCount, hstream, if_neg Bool.false_ne_true]
  exact Nat.min_eq_left (by omega)

theorem readInto_of_holds (hstream : stream.failed = false)
    (hholds : stream.file.Holds stream.position data) (buffer : Fin n → UInt8) :
    stream.readInto buffer = data := by
  funext i
  rw [readInto, readCount_of_inside hstream hholds.inside, if_pos i.isLt]
  exact hholds.bytes_eq i

theorem afterRead_of_inside (hstream : stream.failed = false)
    (hinside : stream.position + n ≤ stream.file.size) :
    (stream.afterRead n).failed = false := by
  rw [afterRead, readCount_of_inside hstream hinside, hstream, Bool.false_or]
  exact decide_eq_false (Nat.lt_irrefl n)

end FileStream

end HiveDb.Lib
