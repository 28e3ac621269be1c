import HiveDb.Lib.LittleEndian
import HiveDb.Parser.Expressions

/-!
# The data types and their encodings

A row is a list of cells.  A cell of a pointer keeps the address it belongs to,
so that what is read back as a pointer is one that has been written; the
character arrays that pointers lead to are the blocks of a heap, in the order in
which they have been allocated.
-/

namespace HiveDb

open HiveDb.Lib

inductive DataTypes where
  | varchar | integer | real
  deriving DecidableEq, Repr

/-- A byte of memory: a plain one, or one of the bytes of a pointer. -/
inductive Cell where
  | byte (value : UInt8)
  | pointer (address index : Nat)
  deriving DecidableEq, Repr

/-- The blocks that have been allocated; the address of a block is its position. -/
abbrev Heap := List Text

namespace DataTypes

def toText : DataTypes → Text
  | .integer => "integer".toList
  | .varchar => "varchar".toList
  | .real => "real".toList

def isTypeValid (dt : Text) : Bool :=
  dt == "integer".toList || dt == "varchar".toList || dt == "real".toList

def fromString (dt : Text) : Except Failure DataTypes :=
  if dt = "integer".toList then .ok .integer
  else if dt = "varchar".toList then .ok .varchar
  else if dt = "real".toList then .ok .real
  else .error (.invalidArgument "RAHHHHHHHHHHHHHHHHHHH! Invalid data type.")

/-- `sizeof(const char *)` -/
def pointerSize : Nat := 8

/-- `findOffset`, the `size` of each type. -/
def findOffset : DataTypes → Nat
  | .integer => 4
  | .varchar => 2 + pointerSize
  | .real => 4

end DataTypes

/-! ## Access to the cells -/

/-- The bytes of a number. -/
def cellsOf (width n : Nat) : List Cell := (bytesOf width n).map .byte

/-- The bytes of a pointer. -/
def pointerCells (address : Nat) : List Cell :=
  (List.range DataTypes.pointerSize).map (.pointer address)

/-- The cells at a position; reading outside of the vector is undefined. -/
def cellsAt (data : List Cell) (ptr width : Nat) : Except Failure (List Cell) :=
  if ptr + width ≤ data.length then .ok ((data.drop ptr).take width) else .error .undefined

/-- The plain bytes of the cells; the bytes of an address are not specified. -/
def plainBytes : List Cell → Except Failure (List UInt8)
  | [] => .ok []
  | .byte value :: rest => do
      let others ← plainBytes rest
      return value :: others
  | .pointer _ _ :: _ => .error .undefined

/-- The number that is stored at a position. -/
def numberAt (data : List Cell) (ptr width : Nat) : Except Failure Nat := do
  let cells ← cellsAt data ptr width
  let bytes ← plainBytes cells
  return numberOf bytes

/-- The pointer that is stored at a position; following anything else is undefined. -/
def pointerAt (data : List Cell) (ptr : Nat) : Except Failure Nat := do
  match ← cellsAt data ptr DataTypes.pointerSize with
  | .pointer address index :: rest =>
      if .pointer address index :: rest = pointerCells address then return address
      else .error .undefined
  | _ => .error .undefined

/-! ## The encoders -/

namespace Integer

def serialize (n : Int) (buf : List Cell) : List Cell := buf ++ cellsOf 4 (patternOf n)

def deserialize (data : List Cell) (ptr : Nat) : Except Failure Int := do
  let pattern ← numberAt data ptr 4
  return signedOf pattern

end Integer

namespace Real

def serialize (n : Real32) (buf : List Cell) : List Cell := buf ++ cellsOf 4 n.toNat

def deserialize (data : List Cell) (ptr : Nat) : Except Failure Real32 := do
  let pattern ← numberAt data ptr 4
  return UInt32.ofNat pattern

end Real

namespace Varchar

/-- `static_cast<uint16_t>(str.size())` -/
def sizeOf (str : Text) : Nat := str.length % 65536

/-- `serialize`: the buffer, the addresses that the table owns, and the heap afterwards. -/
def serialize (str : Text) (buf : List Cell) (varchars : List Nat) (heap : Heap) :
    List Cell × List Nat × Heap :=
  let address := heap.length
  (buf ++ cellsOf 2 (sizeOf str) ++ pointerCells address, varchars ++ [address],
    heap ++ [str.take (sizeOf str)])

def deserialize (data : List Cell) (ptr : Nat) (heap : Heap) : Except Failure Text := do
  let strSize ← numberAt data ptr 2
  let address ← pointerAt data (ptr + 2)
  match heap[address]? with
  | some block => if strSize ≤ block.length then return block.take strSize else .error .undefined
  | none => .error .undefined

end Varchar

end HiveDb
