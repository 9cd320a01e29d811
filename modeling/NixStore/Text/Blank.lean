import NixStore.Text.Basic

/-!
# Blank characters

The characters that Unicode counts as white space, and the words that they separate.
-/

namespace NixStore.Text

/-- The white space of Unicode. -/
def isBlank (c : Char) : Bool :=
  let n := c.toNat
  (9 ≤ n && n ≤ 13) || n = 0x20 || n = 0x85 || n = 0xA0 || n = 0x1680 ||
    (0x2000 ≤ n && n ≤ 0x200A) || n = 0x2028 || n = 0x2029 || n = 0x202F || n = 0x205F ||
    n = 0x3000

/-- Splits a text at its blanks; `word` holds the letters read since the last one, in reverse. -/
def wordsFrom (word : Text) : Text → List Text
  | [] => if word.isEmpty then [] else [word.reverse]
  | c :: rest =>
    if isBlank c then
      if word.isEmpty then wordsFrom [] rest else word.reverse :: wordsFrom [] rest
    else wordsFrom (c :: word) rest

/-- The longest stretches without a blank, in order. -/
def words (t : Text) : List Text := wordsFrom [] t

end NixStore.Text
