/-
The two ways in which a payload can be compressed, and what can be wrong with compressed data.
-/
import BinRecord.Text.Quoted

namespace BinRecord

/-- A way of compressing a payload. -/
inductive CompressionMethod where
  | gzip
  | bzip2
  deriving DecidableEq, Repr

namespace CompressionMethod

/-- The name of a method. -/
def name : CompressionMethod → String
  | gzip => "gzip"
  | bzip2 => "bzip2"

/-- The method with a given name. -/
def ofName? (s : String) : Option CompressionMethod :=
  if s = "gzip" then some gzip else if s = "bzip2" then some bzip2 else none

theorem ofName?_name (m : CompressionMethod) : ofName? m.name = some m := by cases m <;> decide

end CompressionMethod

/-- What is wrong with compressed data. -/
inductive CompressionFault where
  | notGzip (magic : Bytes)
  | unknownMethod
  | gzipEnded
  | badDeflate
  | badChecksum
  | badLength
  | badBzip2
  | bzip2Ended
  deriving DecidableEq, Repr

/-- The report of a fault. -/
def CompressionFault.message : CompressionFault → String
  | notGzip magic => s!"Not a gzipped file ({Text.quoteBytes magic})"
  | unknownMethod => "Unknown compression method"
  | gzipEnded => "Compressed file ended before the end-of-stream marker was reached"
  | badDeflate => "zlib.error"
  | badChecksum => "CRC check failed"
  | badLength => "Incorrect length of data produced"
  | badBzip2 => "Invalid data stream"
  | bzip2Ended => "Compressed data ended before the end-of-stream marker was reached"

end BinRecord
