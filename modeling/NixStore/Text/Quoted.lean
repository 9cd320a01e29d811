import NixStore.Text.Printable

/-!
# Quoted characters and texts

How a message shows a character or a text that may hold anything: between quotes, with the common
controls, the backslash and the quote itself escaped by a letter, and every other character that
is not printable by its number in lower-case base 16 between braces. A character is quoted by
apostrophes and a text by double quotes, and each escapes only its own quote.
-/

namespace NixStore.Text

def hexDigits (n : Nat) : Text := Nat.toDigits 16 n

def escape (q c : Char) : Text :=
  if c = '\x00' then ['\\', '0']
  else if c = '\t' then ['\\', 't']
  else if c = '\r' then ['\\', 'r']
  else if c = '\n' then ['\\', 'n']
  else if c = '\\' ∨ c = q then ['\\', c]
  else if isPrintable c then [c]
  else text "\\u\x7b" ++ hexDigits c.toNat ++ text "\x7d"

def quoteChar (c : Char) : String := String.ofList ('\'' :: escape '\'' c ++ ['\''])

def quote (t : Text) : String := String.ofList ('"' :: t.flatMap (escape '"') ++ ['"'])

end NixStore.Text
