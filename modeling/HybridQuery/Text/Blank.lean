/-!
# Blanks and lines

The characters with the Unicode property White_Space, and trimming by them. A text is cut into lines at its
line feeds: a carriage return right before a line feed belongs to the line end, and a line feed at the very
end starts no further line.
-/

namespace HybridQuery
namespace Text

/-- Whether a character has the Unicode property White_Space. -/
def isBlank (c : Char) : Bool :=
  let n := c.toNat
  (9 ≤ n && n ≤ 13) || n == 0x20 || n == 0x85 || n == 0xA0 || n == 0x1680
    || (0x2000 ≤ n && n ≤ 0x200A) || n == 0x2028 || n == 0x2029 || n == 0x202F || n == 0x205F
    || n == 0x3000

/-- Drops leading blanks. -/
def trimStart (cs : List Char) : List Char := cs.dropWhile isBlank

/-- Drops trailing blanks. -/
def trimEnd (cs : List Char) : List Char := (cs.reverse.dropWhile isBlank).reverse

/-- Drops blanks at both ends. -/
def trimChars (cs : List Char) : List Char := trimEnd (trimStart cs)

/-- A text without the blanks at its ends. -/
def trim (s : String) : String := String.ofList (trimChars s.toList)

/-! ## Lines -/

/-- Cuts at every occurrence of a character. -/
def cutAt (c : Char) : List Char → List (List Char)
  | [] => [[]]
  | x :: rest =>
    if x = c then [] :: cutAt c rest
    else
      match cutAt c rest with
      | [] => [[x]]
      | line :: lines => (x :: line) :: lines

/-- Drops one carriage return at the end. -/
def dropReturn (line : List Char) : List Char :=
  if line.getLast? = some '\r' then line.dropLast else line

/-- The lines of a text: every one but the last ended in a line feed; the last is left out if it is
empty, and keeps its carriage return. -/
def lineChars (cs : List Char) : List (List Char) :=
  let pieces := cutAt '\n' cs
  let last := pieces.getLast?.getD []
  pieces.dropLast.map dropReturn ++ if last.isEmpty then [] else [last]

/-- The lines of a text. -/
def lines (s : String) : List String := (lineChars s.toList).map String.ofList

end Text
end HybridQuery
