/-
The Deflate format: blocks of stored bytes, or of literals and copies from the output so far, in
canonical codes that are fixed or sent with the block.
-/
import BinRecord.Compression.CanonicalCode

namespace BinRecord.Deflate

/-! ## Lengths and distances -/

/-- The least length of each length symbol, and how many bits are added to it. -/
def lengthTable : Array (Nat × Nat) :=
  #[(3, 0), (4, 0), (5, 0), (6, 0), (7, 0), (8, 0), (9, 0), (10, 0), (11, 1), (13, 1), (15, 1),
    (17, 1), (19, 2), (23, 2), (27, 2), (31, 2), (35, 3), (43, 3), (51, 3), (59, 3), (67, 4),
    (83, 4), (99, 4), (115, 4), (131, 5), (163, 5), (195, 5), (227, 5), (258, 0)]

/-- The least distance of each distance symbol, and how many bits are added to it. -/
def distanceTable : Array (Nat × Nat) :=
  #[(1, 0), (2, 0), (3, 0), (4, 0), (5, 1), (7, 1), (9, 2), (13, 2), (17, 3), (25, 3), (33, 4),
    (49, 4), (65, 5), (97, 5), (129, 6), (193, 6), (257, 7), (385, 7), (513, 8), (769, 8),
    (1025, 9), (1537, 9), (2049, 10), (3073, 10), (4097, 11), (6145, 11), (8193, 12), (12289, 12),
    (16385, 13), (24577, 13)]

/-- Reads the number that a symbol stands for. -/
def readAmount (table : Array (Nat × Nat)) (symbol : Nat) : BitReader Nat :=
  match table[symbol]? with
  | none => throw .bad
  | some (least, extra) => do
    let more ← Bits.readLow extra
    return least + more

/-! ## Blocks -/

/-- Appends `count` bytes, each a copy of the one `distance` before it. -/
def copyBack (distance : Nat) : Nat → Array UInt8 → Array UInt8
  | 0, out => out
  | count + 1, out => copyBack distance count (out.push (out[out.size - distance]?.getD 0))

/-- Reads literals and copies up to the end of a block. -/
def readSymbols (literals distances : CanonicalCode) :
    Nat → Array UInt8 → BitReader (Array UInt8)
  | 0, _ => throw .ended
  | fuel + 1, out => do
    let symbol ← literals.read
    if symbol < 256 then readSymbols literals distances fuel (out.push (UInt8.ofNat symbol))
    else if symbol = 256 then return out
    else
      let length ← readAmount lengthTable (symbol - 257)
      let distance ← readAmount distanceTable (← distances.read)
      if out.size < distance then throw .bad
      readSymbols literals distances fuel (copyBack distance length out)

/-- Reads the literals and copies of a block in two codes. -/
def readCoded (literals distances : CanonicalCode) (out : Array UInt8) :
    BitReader (Array UInt8) := do
  let fuel := (← get).length
  readSymbols literals distances (fuel + 1) out

/-- Reads `count` bytes. -/
def readBytes : Nat → Array UInt8 → BitReader (Array UInt8)
  | 0, out => return out
  | count + 1, out => do
    let b ← Bits.readLow 8
    readBytes count (out.push (UInt8.ofNat b))

/-- Reads a block of stored bytes; their number is sent twice, the second time inverted. -/
def readStored (out : Array UInt8) : BitReader (Array UInt8) := do
  Bits.alignToByte
  let count ← Bits.readLow 16
  let inverted ← Bits.readLow 16
  if count + inverted ≠ 0xffff then throw .bad
  readBytes count out

/-! ## Codes -/

/-- The codes of blocks that send none. -/
def fixedCodes : CanonicalCode × CanonicalCode :=
  let literals := List.replicate 144 8 ++ List.replicate 112 9 ++ List.replicate 24 7 ++
    List.replicate 8 8
  (.ofLengths 9 literals, .ofLengths 5 (List.replicate 32 5))

/-- The code with the given lengths of words. A code must use all words, except that a code of one
word of one bit is complete where `single` allows it, and a code without words where `empty` does;
nothing can be read in the latter, after one bit. -/
def codeOf (single empty : Bool) (lengths : List Nat) : BitReader CanonicalCode :=
  let longest := lengths.foldl max 0
  if longest = 0 then
    if empty then return ⟨[0], #[]⟩ else throw .bad
  else
    let code := CanonicalCode.ofLengths longest lengths
    match code.room with
    | some 0 => return code
    | some _ => if single && longest = 1 then return code else throw .bad
    | none => throw .bad

/-- The order in which the lengths of the words for lengths are sent. -/
def lengthOrder : List Nat := [16, 17, 18, 0, 8, 7, 9, 6, 10, 5, 11, 4, 12, 3, 13, 2, 14, 1, 15]

/-- Reads `count` numbers of three bits. -/
def readTriples : Nat → BitReader (List Nat)
  | 0 => return []
  | count + 1 => do
    let n ← Bits.readLow 3
    let ns ← readTriples count
    return n :: ns

/-- Repeats a length up to `total` lengths; `done` holds those before, the latest first. -/
def repeatLength (total length count : Nat) (done : List Nat) : BitReader (List Nat) :=
  if total < done.length + count then throw .bad
  else return List.replicate count length ++ done

/-- Reads lengths until there are `total`; `done` holds those before, the latest first. -/
def readLengths (code : CanonicalCode) (total : Nat) : Nat → List Nat → BitReader (List Nat)
  | 0, _ => throw .ended
  | fuel + 1, done => do
    if total ≤ done.length then return done.reverse
    let symbol ← code.read
    if symbol < 16 then readLengths code total fuel (symbol :: done)
    else
      let done ←
        if symbol = 16 then do
          let more ← Bits.readLow 2
          match done with
          | [] => throw .bad
          | length :: _ => repeatLength total length (3 + more) done
        else if symbol = 17 then do
          let more ← Bits.readLow 3
          repeatLength total 0 (3 + more) done
        else do
          let more ← Bits.readLow 7
          repeatLength total 0 (11 + more) done
      readLengths code total fuel done

/-- The code in which lengths are sent; a code without words reads every bit as length zero. -/
def lengthCodeOf (lengths : List Nat) : BitReader CanonicalCode :=
  if lengths.all (· = 0) then return ⟨[2], #[0, 0]⟩ else codeOf false false lengths

/-- Reads the codes that a block sends. -/
def readCodes : BitReader (CanonicalCode × CanonicalCode) := do
  let literalCount := 257 + (← Bits.readLow 5)
  let distanceCount := 1 + (← Bits.readLow 5)
  let lengthCount := 4 + (← Bits.readLow 4)
  if 286 < literalCount || 30 < distanceCount then throw .bad
  let sent ← readTriples lengthCount
  let placed := lengthOrder.zip sent
  let lengthCode ← lengthCodeOf ((List.range 19).map fun s => (placed.lookup s).getD 0)
  let total := literalCount + distanceCount
  let lengths ← readLengths lengthCode total (total + 1) []
  if (lengths[256]?).getD 0 = 0 then throw .bad
  let literals ← codeOf true false (lengths.take literalCount)
  let distances ← codeOf true true (lengths.drop literalCount)
  return (literals, distances)

/-! ## Streams -/

/-- Reads a block after its two bits of kind. -/
def readBlock (kind : Nat) (out : Array UInt8) : BitReader (Array UInt8) := do
  if kind = 0 then readStored out
  else if kind = 1 then readCoded fixedCodes.1 fixedCodes.2 out
  else if kind = 2 then
    let (literals, distances) ← readCodes
    readCoded literals distances out
  else throw .bad

/-- Reads blocks up to the last one. -/
def readBlocks : Nat → Array UInt8 → BitReader (Array UInt8)
  | 0, _ => throw .ended
  | fuel + 1, out => do
    let last ← Bits.next
    let kind ← Bits.readLow 2
    let out ← readBlock kind out
    if last then return out else readBlocks fuel out

/-- Expands the stream at the head of some bytes, and gives what follows the stream. -/
def expand (bs : Bytes) : Except BitFault (Bytes × Bytes) := do
  let bits := Bits.ofBytesLow bs
  let (out, rest) ← (readBlocks (bits.length + 1) #[]).run bits
  .ok (out.toList, Bits.untouched bs rest)

end BinRecord.Deflate
