/-
Strict decoding of bytes to characters, one character at a time. A codec is a function that looks at
the first byte and what follows it: it yields a character and how many further bytes belong to it,
or says how many bytes are ill-formed and why. Decoding stops at the first ill-formed place.
-/
import BinRecord.Bytes

namespace BinRecord.Text

/-- What a codec finds at the head of the bytes. -/
inductive Step where
  | char (c : Char) (further : Nat)
  | bad (size : Nat) (reason : String)

/-- A codec: the first byte, and all that follow it. -/
abbrev Codec := UInt8 → Bytes → Step

/-- The first ill-formed place of some bytes: `size` bytes from `start` on, the first being `byte`.
-/
structure Malformed where
  codec : String
  start : Nat
  size : Nat
  byte : UInt8
  reason : String
  deriving DecidableEq, Repr

/-- The report of an ill-formed place. -/
def Malformed.message (m : Malformed) : String :=
  let place :=
    if m.size = 1 then
      s!"byte 0x{String.ofList (Bytes.hexOfByte m.byte)} in position {m.start}"
    else s!"bytes in position {m.start}-{m.start + m.size - 1}"
  s!"'{m.codec}' codec can't decode {place}: {m.reason}"

/-- Decodes what is left of some bytes, `i` of which have given the characters in `done`. -/
def decodeFrom (name : String) (codec : Codec) (i : Nat) (done : List Char) :
    Bytes → Except Malformed (List Char)
  | [] => .ok done.reverse
  | b :: bs =>
    match codec b bs with
    | .char c further => decodeFrom name codec (i + 1 + further) (c :: done) (bs.drop further)
    | .bad size reason => .error ⟨name, i, size, b, reason⟩
termination_by bs => bs.length
decreasing_by simp only [List.length_drop, List.length_cons]; omega

/-- Decodes all of some bytes; `name` is the codec's name in reports. -/
def decodeWith (name : String) (codec : Codec) (bs : Bytes) : Except Malformed (List Char) :=
  decodeFrom name codec 0 [] bs

end BinRecord.Text
