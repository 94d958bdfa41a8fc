/-
The gzip format: members one after the other, each with a header, a Deflate stream, and the check
and length of what it expands to. Zero bytes may follow a member.
-/
import BinRecord.Compression.Checksum
import BinRecord.Compression.Deflate
import BinRecord.Compression.Error

namespace BinRecord.Gzip

/-- Passes `n` bytes, all of which must exist. -/
def pass (n : Nat) (bs : Bytes) : Except CompressionFault Bytes :=
  if bs.length < n then .error .gzipEnded else .ok (bs.drop n)

/-- Passes a text that a zero byte ends, or the end of the data. -/
def passText (bs : Bytes) : Bytes := (bs.dropWhile (· ≠ 0)).drop 1

/-- Passes the optional parts of a header that `flags` announces. -/
def passOptions (flags : UInt8) (bs : Bytes) : Except CompressionFault Bytes := do
  let bs ←
    if flags &&& 4 ≠ 0 then do
      let rest ← pass 2 bs
      pass (Bytes.toNat .little (bs.take 2)) rest
    else pure bs
  let bs := if flags &&& 8 ≠ 0 then passText bs else bs
  let bs := if flags &&& 16 ≠ 0 then passText bs else bs
  if flags &&& 2 ≠ 0 then pass 2 bs else .ok bs

/-- Expands the member at the head of the data, and gives what follows it. -/
def member (bs : Bytes) : Except CompressionFault (Bytes × Bytes) := do
  let magic := bs.take 2
  if magic ≠ [0x1f, 0x8b] then throw (.notGzip magic)
  let fixed := (bs.drop 2).take 8
  let body ← pass 8 (bs.drop 2)
  if fixed.head? ≠ some 8 then throw .unknownMethod
  let stream ← passOptions ((fixed[1]?).getD 0) body
  match Deflate.expand stream with
  | .error .bad => .error .badDeflate
  | .error .ended => .error .gzipEnded
  | .ok (out, rest) =>
    let after ← pass 8 rest
    if Bytes.toNat .little (rest.take 4) ≠ (Checksum.low out).toNat then .error .badChecksum
    else if Bytes.toNat .little ((rest.drop 4).take 4) ≠ out.length % 0x100000000 then
      .error .badLength
    else .ok (out, after.dropWhile (· = 0))

/-- Expands members up to the end of the data; `done` holds what those before gave, the latest
first. Every member takes more than two bytes, so `fuel` bounds their number. -/
def members : Nat → List Bytes → Bytes → Except CompressionFault Bytes
  | _, done, [] => .ok done.reverse.flatten
  | 0, _, _ => .error .gzipEnded
  | fuel + 1, done, bs => do
    let (out, rest) ← member bs
    members fuel (out :: done) rest

/-- Expands gzip data. -/
def expand (bs : Bytes) : Except CompressionFault Bytes := members bs.length [] bs

end BinRecord.Gzip
