/-!
# Text

Characters that count as blank, trimming, and cutting a text at a separator. Texts are taken apart
as lists of characters.
-/

namespace TypedRecords.Text

/-- The ranges of the `White_Space` property, ends included. -/
def blankRanges : List (Nat × Nat) :=
  [(0x09, 0x0D), (0x20, 0x20), (0x85, 0x85), (0xA0, 0xA0), (0x1680, 0x1680), (0x2000, 0x200A),
    (0x2028, 0x2029), (0x202F, 0x202F), (0x205F, 0x205F), (0x3000, 0x3000)]

/-- Whether a character has the `White_Space` property. -/
def isBlank (c : Char) : Bool :=
  blankRanges.any fun range => range.1 ≤ c.toNat && c.toNat ≤ range.2

/-- Drops blanks at the start. -/
def trimStart (text : List Char) : List Char :=
  text.dropWhile isBlank

/-- Drops blanks at the end. -/
def trimEnd (text : List Char) : List Char :=
  (text.reverse.dropWhile isBlank).reverse

/-- Drops blanks at both ends. -/
def trim (text : List Char) : List Char :=
  trimEnd (trimStart text)

/-- The parts between the occurrences of `separator`: one more than there are separators. -/
def pieces (separator : Char) : List Char → List (List Char)
  | [] => [[]]
  | c :: rest =>
    if c = separator then [] :: pieces separator rest
    else match pieces separator rest with
      | [] => [[c]]
      | piece :: others => (c :: piece) :: others

/-- The text without `ending`, if it ends so. -/
def dropEnding? (ending text : List Char) : Option (List Char) :=
  if ending <:+ text then some (text.take (text.length - ending.length)) else none

/-- The text in lower case; only the letters `A` to `Z` change. -/
def lower (text : List Char) : List Char :=
  text.map Char.toLower

/-- The text in upper case; only the letters `a` to `z` change. -/
def upper (text : List Char) : List Char :=
  text.map Char.toUpper

theorem pieces_ne_nil (separator : Char) (text : List Char) : pieces separator text ≠ [] := by
  cases text with
  | nil => simp [pieces]
  | cons c rest =>
    unfold pieces
    split
    · simp
    · split <;> simp

end TypedRecords.Text
