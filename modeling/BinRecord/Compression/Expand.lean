/-
Expanding compressed payloads.
-/
import BinRecord.Compression.Bzip2
import BinRecord.Compression.Gzip

namespace BinRecord

/-- Expands data compressed in a given way. -/
def CompressionMethod.expand : CompressionMethod → Bytes → Except CompressionFault Bytes
  | gzip, bs => Gzip.expand bs
  | bzip2, bs => Bzip2.expand bs

end BinRecord
