/-
The blanks that may surround a number typed by a user: the five ASCII layout characters, the space,
and the spaces and line ends of Unicode 14. The four ASCII information separators are not among
them.
-/
namespace BinRecord.Text

/-- Whether a character may surround a typed number. -/
def isBlank (c : Char) : Bool :=
  let n := c.toNat
  (9 ≤ n && n ≤ 13) || n == 0x20 || n == 0x85 || n == 0xa0 || n == 0x1680 ||
    (0x2000 ≤ n && n ≤ 0x200a) || n == 0x2028 || n == 0x2029 || n == 0x202f || n == 0x205f ||
    n == 0x3000

/-- A text without the blanks at its two ends. -/
def trimBlanks (cs : List Char) : List Char :=
  ((cs.dropWhile isBlank).reverse.dropWhile isBlank).reverse

example : trimBlanks " \t7 8\u3000".toList = "7 8".toList := by decide +kernel

end BinRecord.Text
