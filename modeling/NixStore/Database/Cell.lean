import NixStore.Database.Numeral
import NixStore.Error.Database

/-!
# Cells of tables

A cell holds any kind of value, but a column prefers one kind and converts what it can without
loss when a value is put in: a column of integers takes a text that writes a whole number as that
number, and a column of texts writes an integer out. Of a number that is not an integer of 64 bits
only that much is kept, since nothing reads such a number.
-/

namespace NixStore

/-- The value of a cell. -/
inductive Cell where
  | null
  | integer (value : Int64)
  | real
  | text (value : Text)
  | blob (value : Bytes)
deriving DecidableEq, Repr

namespace Cell

/-- The storage class of a value that is not null. -/
def storageClass? : Cell → Option StorageClass
  | null => none
  | integer _ => some .integer
  | real => some .real
  | text _ => some .text
  | blob _ => some .blob

/-- The cell of a numeral: an integer if it is one of 64 bits, where a numeral with a point or an
exponent is taken for a floating point number first. -/
def ofNumeral (x : Numeral) : Cell :=
  if x.plain then
    if Int64.minValue.toInt ≤ x.toInt ∧ x.toInt ≤ Int64.maxValue.toInt then
      integer (Int64.ofInt x.toInt)
    else real
  else
    let r := x.toFloat
    let i := r.toInt64
    -- the ends of the range may stand for numbers beyond them
    if i.toFloat == r && Int64.minValue < i && i < Int64.maxValue then integer i else real

/-! ## Columns -/

/-- What a column of integers makes of a value. -/
def inIntegerColumn : Cell → Cell
  | text t =>
    match Numeral.ofText? t with
    | some x => ofNumeral x
    | none => text t
  | c => c

/-- What a column of texts makes of a value. -/
def inTextColumn : Cell → Cell
  | integer n => text (toString n.toInt).toList
  | c => c

/-- Reads an integer from the column `name`, the `index`th of a row. -/
def readInteger (index : Nat) (name : String) : Cell → Except DatabaseError Int64
  | integer n => .ok n
  | c => .error (.wrongType c.storageClass? index name)

def readText (index : Nat) (name : String) : Cell → Except DatabaseError Text
  | text t => .ok t
  | c => .error (.wrongType c.storageClass? index name)

def readOptional {α : Type} (read : Cell → Except DatabaseError α) :
    Cell → Except DatabaseError (Option α)
  | null => .ok none
  | c => (read c).map some

end Cell

end NixStore
