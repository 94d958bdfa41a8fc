/-
The bzip2 format. A stream holds blocks; a block was shortened in runs, permuted so that equal bytes
come together, turned into ranks of recently used bytes, and written in canonical codes that change
every fifty symbols. Reading undoes these steps in turn, and checks what they give.
-/
import BinRecord.Compression.CanonicalCode
import BinRecord.Compression.Checksum
import BinRecord.Compression.Error

namespace BinRecord.Bzip2

open Bits

/-! ## Codes of a block -/

/-- Reads `count` bits. -/
def readFlags : Nat → BitReader (List Bool)
  | 0 => return []
  | count + 1 => do
    let b ← next
    let bs ← readFlags count
    return b :: bs

/-- Reads the flags of sixteen groups of bytes; a group that is not in use has none. -/
def readGroups : List Bool → BitReader (List Bool)
  | [] => return []
  | used :: groups => do
    let flags ← if used then readFlags 16 else pure (List.replicate 16 false)
    let rest ← readGroups groups
    return flags ++ rest

/-- Reads which bytes occur, and gives them in increasing order. -/
def readBytesInUse : BitReader (List UInt8) := do
  let groups ← readFlags 16
  let flags ← readGroups groups
  return flags.zipIdx.filterMap fun (used, b) => if used then some (UInt8.ofNat b) else none

/-- Reads a number below `limit`, written as so many ones before a zero. -/
def readUnary : Nat → BitReader Nat
  | 0 => throw .bad
  | limit + 1 => do
    if ← next then
      if limit = 0 then throw .bad
      let n ← readUnary limit
      return n + 1
    else return 0

/-- Moves the entry of rank `rank` to the front, and gives it. -/
def toFront {α : Type} (rank : Nat) (table : List α) : Option (α × List α) :=
  (table[rank]?).map fun a => (a, a :: table.eraseIdx rank)

/-- Reads ranks of codes and gives the codes; `recent` holds all codes, the latest used first. -/
def readSelectors (codes : Nat) : Nat → List Nat → BitReader (List Nat)
  | 0, _ => return []
  | count + 1, recent => do
    let rank ← readUnary codes
    match toFront rank recent with
    | none => throw .bad
    | some (code, recent) =>
      let rest ← readSelectors codes count recent
      return code :: rest

/-- Reads the changes that lead from one length of a word to the next. -/
def readLength : Nat → Nat → BitReader Nat
  | 0, _ => throw .ended
  | fuel + 1, length => do
    if length < 1 || 20 < length then throw .bad
    if ← next then
      let down ← next
      readLength fuel (if down then length - 1 else length + 1)
    else return length

/-- Reads the lengths of `count` words, the last of them having been `length`; `fuel` bounds the
changes from one to the next. -/
def readLengths (fuel : Nat) : Nat → Nat → BitReader (List Nat)
  | 0, _ => return []
  | count + 1, length => do
    let length ← readLength fuel length
    let rest ← readLengths fuel count length
    return length :: rest

/-- Reads `count` codes of `size` words. Words have at most twenty bits; a twenty-first is looked at
before a word is found to be none. -/
def readCodes (fuel size : Nat) : Nat → BitReader (List CanonicalCode)
  | 0 => return []
  | count + 1 => do
    let first ← readHigh 5
    let lengths ← readLengths fuel size first
    let rest ← readCodes fuel size count
    return .ofLengths 21 lengths :: rest

/-! ## Ranks -/

/-- A run of the most recent byte: its length so far, and what the next digit counts for. -/
structure Run where
  length : Nat := 0
  unit : Nat := 1

/-- How far the digits of a run may go. -/
def runLimit : Nat := 2 * 1024 * 1024

/-- The permuted bytes of a block as far as they are known, the bytes that occur, the latest first,
and the run that is being read. -/
structure Column where
  bytes : Array UInt8
  recent : List UInt8
  run : Run := {}

namespace Column

/-- Appends a byte `count` times, unless the block would grow beyond `limit`. -/
def append (limit : Nat) (c : Column) (b : UInt8) (count : Nat) : Option Column :=
  if limit < c.bytes.size + count then none
  else some { c with bytes := c.bytes ++ Array.replicate count b }

/-- Ends the run. -/
def endRun (limit : Nat) (c : Column) : Option Column :=
  if c.run.length = 0 then some { c with run := {} }
  else c.recent.head?.bind fun b => { c with run := {} }.append limit b c.run.length

/-- Takes a symbol that does not end the block: 0 and 1 are the digits of a run, others are ranks.
-/
def add (limit : Nat) (c : Column) (symbol : Nat) : Option Column :=
  if symbol < 2 then
    if runLimit ≤ c.run.unit then none
    else some { c with run := ⟨c.run.length + (symbol + 1) * c.run.unit, 2 * c.run.unit⟩ }
  else
    (c.endRun limit).bind fun c =>
      (toFront (symbol - 1) c.recent).bind fun (b, recent) =>
        { c with recent := recent }.append limit b 1

end Column

/-! ## Symbols of a block -/

/-- How many symbols are written in one code before the next is taken. -/
def groupSize : Nat := 50

/-- The most codes that are kept; further ones are ignored. -/
def selectorLimit : Nat := 18002

/-- Reads symbols up to `last`; `left` symbols of the present code are still to come, and
`selectors` tells the codes after it. -/
def readColumn (limit last : Nat) (codes : Array CanonicalCode) :
    Nat → Column → Nat → CanonicalCode → List Nat → BitReader (Array UInt8)
  | 0, _, _, _, _ => throw .ended
  | fuel + 1, column, left, code, selectors => do
    let (left, code, selectors) ←
      match left, selectors with
      | 0, [] => throw .bad
      | 0, s :: selectors => pure (groupSize, (codes[s]?).getD code, selectors)
      | left + 1, selectors => pure (left + 1, code, selectors)
    let symbol ← code.read
    if symbol = last then
      match column.endRun limit with
      | none => throw .bad
      | some column => return column.bytes
    else
      match column.add limit symbol with
      | none => throw .bad
      | some column => readColumn limit last codes fuel column (left - 1) code selectors

/-! ## Order -/

/-- Where the byte that follows each byte of a permuted block stands: the places of the block in the
order of their bytes. -/
def successors (column : Array UInt8) : Array Nat :=
  let counts := column.foldl (fun counts b => counts.modify b.toNat (· + 1)) (Array.replicate 256 0)
  let starts := (counts.foldl (fun (starts, total) n => (starts.push total, total + n))
    ((#[] : Array Nat), 0)).1
  let place := fun (order, starts) (i : Nat) =>
    let b := ((column[i]?).getD 0).toNat
    let rank := (starts[b]?).getD 0
    ((order : Array Nat).setIfInBounds rank i, (starts : Array Nat).setIfInBounds b (rank + 1))
  ((List.range column.size).foldl place (Array.replicate column.size 0, starts)).1

/-- Follows `count` successors from a place; the latest byte comes first. -/
def follow (column : Array UInt8) (next : Array Nat) : Nat → Nat → Bytes → Bytes
  | 0, _, done => done
  | count + 1, i, done =>
    let i := (next[i]?).getD 0
    follow column next count i ((column[i]?).getD 0 :: done)

/-- The block before it was permuted; its first byte stands where `origin` leads. -/
def unpermute (column : Array UInt8) (origin : Nat) : Bytes :=
  (follow column (successors column) column.size origin []).reverse

/-- The gaps between the bytes whose last bit is inverted in blocks that are marked so. -/
def gaps : List Nat := [
    619, 720, 127, 481, 931, 816, 813, 233, 566, 247, 985, 724, 205, 454, 863, 491, 741, 242,
    949, 214, 733, 859, 335, 708, 621, 574, 73, 654, 730, 472, 419, 436, 278, 496, 867, 210, 399,
    680, 480, 51, 878, 465, 811, 169, 869, 675, 611, 697, 867, 561, 862, 687, 507, 283, 482, 129,
    807, 591, 733, 623, 150, 238, 59, 379, 684, 877, 625, 169, 643, 105, 170, 607, 520, 932, 727,
    476, 693, 425, 174, 647, 73, 122, 335, 530, 442, 853, 695, 249, 445, 515, 909, 545, 703, 919,
    874, 474, 882, 500, 594, 612, 641, 801, 220, 162, 819, 984, 589, 513, 495, 799, 161, 604,
    958, 533, 221, 400, 386, 867, 600, 782, 382, 596, 414, 171, 516, 375, 682, 485, 911, 276, 98,
    553, 163, 354, 666, 933, 424, 341, 533, 870, 227, 730, 475, 186, 263, 647, 537, 686, 600,
    224, 469, 68, 770, 919, 190, 373, 294, 822, 808, 206, 184, 943, 795, 384, 383, 461, 404, 758,
    839, 887, 715, 67, 618, 276, 204, 918, 873, 777, 604, 560, 951, 160, 578, 722, 79, 804, 96,
    409, 713, 940, 652, 934, 970, 447, 318, 353, 859, 672, 112, 785, 645, 863, 803, 350, 139, 93,
    354, 99, 820, 908, 609, 772, 154, 274, 580, 184, 79, 626, 630, 742, 653, 282, 762, 623, 680,
    81, 927, 626, 789, 125, 411, 521, 938, 300, 821, 78, 343, 175, 128, 250, 170, 774, 972, 275,
    999, 639, 495, 78, 352, 126, 857, 956, 358, 619, 580, 124, 737, 594, 701, 612, 669, 112, 134,
    694, 363, 992, 809, 743, 168, 974, 944, 375, 748, 52, 600, 747, 642, 182, 862, 81, 344, 805,
    988, 739, 511, 655, 814, 334, 249, 515, 897, 955, 664, 981, 649, 113, 974, 459, 893, 228,
    433, 837, 553, 268, 926, 240, 102, 654, 459, 51, 686, 754, 806, 760, 493, 403, 415, 394, 687,
    700, 946, 670, 656, 610, 738, 392, 760, 799, 887, 653, 978, 321, 576, 617, 626, 502, 894,
    679, 243, 440, 680, 879, 194, 572, 640, 724, 926, 56, 204, 700, 707, 151, 457, 449, 797, 195,
    791, 558, 945, 679, 297, 59, 87, 824, 713, 663, 412, 693, 342, 606, 134, 108, 571, 364, 631,
    212, 174, 643, 304, 329, 343, 97, 430, 751, 497, 314, 983, 374, 822, 928, 140, 206, 73, 263,
    980, 736, 876, 478, 430, 305, 170, 514, 364, 692, 829, 82, 855, 953, 676, 246, 369, 970, 294,
    750, 807, 827, 150, 790, 288, 923, 804, 378, 215, 828, 592, 281, 565, 555, 710, 82, 896, 831,
    547, 261, 524, 462, 293, 465, 502, 56, 661, 821, 976, 991, 658, 869, 905, 758, 745, 193, 768,
    550, 608, 933, 378, 286, 215, 979, 792, 961, 61, 688, 793, 644, 986, 403, 106, 366, 905, 644,
    372, 567, 466, 434, 645, 210, 389, 550, 919, 135, 780, 773, 635, 389, 707, 100, 626, 958,
    165, 504, 920, 176, 193, 713, 857, 265, 203, 50, 668, 108, 645, 990, 626, 197, 510, 357, 358,
    850, 858, 364, 936, 638]

/-- Inverts the last bit of one byte after each gap; `ahead` holds the gaps to come, and `done` the
bytes before, the latest first. -/
def invert (toGo : Nat) (ahead : List Nat) (done : Bytes) : Bytes → Bytes
  | [] => done.reverse
  | b :: bs =>
    let (toGo, ahead) :=
      match toGo, ahead with
      | 0, g :: ahead => (g, ahead)
      | 0, [] => (gaps.headD 1, gaps.drop 1)
      | toGo + 1, ahead => (toGo + 1, ahead)
    invert (toGo - 1) ahead ((if toGo = 2 then b ^^^ 1 else b) :: done) bs

/-! ## Runs -/

/-- Undoes the shortening of runs: after four equal bytes comes how many more there are. `seen`
bytes equal to `b` have just been passed. A block cannot end where a count is due. -/
def lengthen (b : UInt8) (seen : Nat) (done : Bytes) : Bytes → Option Bytes
  | [] => if seen = 4 then none else some done.reverse
  | c :: cs =>
    if seen = 4 then lengthen b 0 (List.replicate c.toNat b ++ done) cs
    else if seen ≠ 0 && c = b then lengthen b (seen + 1) (c :: done) cs
    else lengthen c 1 (c :: done) cs

/-! ## Streams -/

/-- Reads a number of bytes that must have given values. -/
def expect : List Nat → BitReader Unit
  | [] => return ()
  | b :: bs => do
    if (← readHigh 8) ≠ b then throw .bad
    expect bs

/-- The content of a block, once its permuted bytes are known. -/
def contentOf (column : Array UInt8) (origin : Nat) (inverted : Bool) : Option Bytes :=
  if origin < column.size then
    let bytes := unpermute column origin
    lengthen 0 0 [] (if inverted then invert 0 gaps [] bytes else bytes)
  else none

/-- Reads a block, after the bytes that announce it, and gives its check and content. -/
def readBlock (level : Nat) : BitReader (Nat × Bytes) := do
  let check ← readHigh 32
  let inverted ← next
  let origin ← readHigh 24
  if 10 + 100000 * level < origin then throw .bad
  let inUse ← readBytesInUse
  if inUse.isEmpty then throw .bad
  let codeCount ← readHigh 3
  if codeCount < 2 || 6 < codeCount then throw .bad
  let selectorCount ← readHigh 15
  if selectorCount < 1 then throw .bad
  let selectors ← readSelectors codeCount selectorCount (List.range codeCount)
  let size := inUse.length + 2
  let fuel := (← get).length + 1
  let codes ← readCodes fuel size codeCount
  let column ← readColumn (100000 * level) (size - 1) codes.toArray fuel ⟨#[], inUse, {}⟩ 0
    ⟨[], #[]⟩ (selectors.take selectorLimit)
  match contentOf column origin inverted with
  | none => throw .bad
  | some content =>
    if (Checksum.high content).toNat ≠ check then throw .bad
    return (check, content)

/-- The check of a stream after one more block. -/
def combine (stream block : Nat) : Nat :=
  let c := UInt32.ofNat stream
  (((c <<< 1) ||| (c >>> 31)) ^^^ UInt32.ofNat block).toNat

/-- Reads blocks up to the end of the stream; `done` holds what those before gave, the latest first.
-/
def readBlocks (level : Nat) : Nat → Nat → List Bytes → BitReader Bytes
  | 0, _, _ => throw .ended
  | fuel + 1, check, done => do
    let mark ← readHigh 8
    if mark = 0x17 then
      expect [0x72, 0x45, 0x38, 0x50, 0x90]
      if (← readHigh 32) ≠ check then throw .bad
      return done.reverse.flatten
    else if mark = 0x31 then
      expect [0x41, 0x59, 0x26, 0x53, 0x59]
      let (blockCheck, content) ← readBlock level
      readBlocks level fuel (combine check blockCheck) (content :: done)
    else throw .bad

/-- Reads a stream. -/
def readStream : BitReader Bytes := do
  expect [0x42, 0x5a, 0x68]
  let digit ← readHigh 8
  if digit < 0x31 || 0x39 < digit then throw .bad
  let fuel := (← get).length
  readBlocks (digit - 0x30) (fuel + 1) 0 []

/-- Expands streams up to the end of the data; `done` holds what those before gave, the latest
first. What follows the first stream and is none itself is ignored. -/
def streams : Nat → List Bytes → Bytes → Except CompressionFault Bytes
  | _, done, [] => .ok done.reverse.flatten
  | 0, _, _ => .error .bzip2Ended
  | fuel + 1, done, bs =>
    match readStream.run (ofBytesHigh bs) with
    | .error .bad => if done.isEmpty then .error .badBzip2 else .ok done.reverse.flatten
    | .error .ended => .error .bzip2Ended
    | .ok (out, rest) => streams fuel (out :: done) (untouched bs rest)

/-- Expands bzip2 data. -/
def expand (bs : Bytes) : Except CompressionFault Bytes := streams bs.length [] bs

end BinRecord.Bzip2
