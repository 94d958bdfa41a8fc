/-
Decoded values: integers, floating-point numbers with the format they were stored in, texts, byte
strings, structs with named entries in declaration order, and arrays.
-/
import BinRecord.Bytes
import BinRecord.Float.Format
import BinRecord.OrderedMap

namespace BinRecord

/-- A decoded value. -/
inductive Value where
  | int (n : Int)
  | float (format : FloatFormat) (x : Double)
  | text (s : String)
  | bytes (bs : Bytes)
  | struct (entries : List (String × Value))
  | array (items : List Value)
  deriving Inhabited, Repr

end BinRecord
