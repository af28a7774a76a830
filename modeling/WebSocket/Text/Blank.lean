/-
WebSocket/Text/Blank.lean

Blank characters, and the trimming and splitting of header values.

A character is blank when it has the Unicode property `White_Space`.  Note
that this takes in the no-break space and the line and paragraph separators,
but none of the zero-width characters.
-/

namespace WebSocket.Text

/-- The ranges of the Unicode property `White_Space`. -/
def blankRanges : List (Nat × Nat) :=
  [(0x09, 0x0d), (0x20, 0x20), (0x85, 0x85), (0xa0, 0xa0), (0x1680, 0x1680),
   (0x2000, 0x200a), (0x2028, 0x2029), (0x202f, 0x202f), (0x205f, 0x205f),
   (0x3000, 0x3000)]

/-- Whether a character is blank. -/
def isBlank (c : Char) : Bool :=
  blankRanges.any fun r => r.1 ≤ c.toNat && c.toNat ≤ r.2

/-- Drops the blanks in front. -/
def trimStart (s : List Char) : List Char :=
  s.dropWhile isBlank

/-- Drops the blanks at the end. -/
def trimEnd (s : List Char) : List Char :=
  (s.reverse.dropWhile isBlank).reverse

/-- Drops the blanks on both sides. -/
def trim (s : List Char) : List Char :=
  trimEnd (trimStart s)

/-- The pieces of a text between delimiters; there is always one more of them than
there are delimiters. -/
def pieces (delim : Char) : List Char → List (List Char)
  | [] => [[]]
  | c :: s =>
    if c = delim then [] :: pieces delim s
    else match pieces delim s with
      | [] => [[c]]
      | piece :: others => (c :: piece) :: others

/-- Whether two texts are equal but for the case of the letters `A` to `Z`. -/
def eqIgnoreCase (s t : List Char) : Bool :=
  s.map Char.toLower == t.map Char.toLower

end WebSocket.Text
