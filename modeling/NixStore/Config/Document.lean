import NixStore.Text.Digits

/-!
# Configuration documents

A configuration is written as a document of lines `key = value`, in the notation of TOML, with
comments after a number sign. Keys are bare or quoted. A value is a whole number that is not
negative or a string: basic strings know escapes, literal strings do not, and either may go over
several lines. The other kinds of values, tables and dotted keys have no place in a configuration,
so the reader refuses them.
-/

namespace NixStore

/-- A value of a document. -/
inductive DocumentValue where
  | string (value : Text)
  | number (value : Nat)
deriving DecidableEq, Repr

/-- The keys of a document with their values, in order. -/
abbrev Document := List (Text × DocumentValue)

namespace Document

/-! ## Characters -/

/-- The blanks within a line. -/
def isSpace (c : Char) : Bool := c = ' ' || c = '\t'

/-- Controls other than the tab, which stand nowhere in a document but at the ends of lines. -/
def isControl (c : Char) : Bool := (c.toNat < 0x20 && c ≠ '\t') || c.toNat = 0x7F

def isBareKey (c : Char) : Bool := c.isAlphanum || c = '_' || c = '-'

/-- Whether a text starts with the end of a line. -/
def startsLine : Text → Bool
  | '\n' :: _ => true
  | '\r' :: '\n' :: _ => true
  | _ => false

/-- Drops the end of a line from the start of a text. -/
def dropNewline : Text → Text
  | '\n' :: rest => rest
  | '\r' :: '\n' :: rest => rest
  | t => t

def dropBlank : Text → Text
  | ' ' :: rest => dropBlank rest
  | '\t' :: rest => dropBlank rest
  | '\n' :: rest => dropBlank rest
  | '\r' :: '\n' :: rest => dropBlank rest
  | t => t

theorem length_dropBlank_le (t : Text) : (dropBlank t).length ≤ t.length := by
  fun_induction dropBlank t <;> simp_all <;> omega

/-! ## Digits -/

/-- The digits of a number without the underscores between them. An underscore stands between two
digits only. -/
def dropUnderscores : (afterDigit : Bool) → Text → Option Text
  | afterDigit, [] => if afterDigit then some [] else none
  | afterDigit, '_' :: rest => if afterDigit then dropUnderscores false rest else none
  | _, c :: rest => (dropUnderscores true rest).map (c :: ·)

/-- The greatest number that a document holds. -/
def maxNumber : Nat := UInt64.size - 1

/-- The number with the given digits and underscores. -/
def natural? (base : Nat) (t : Text) : Option Nat := do
  let n ← Text.ofDigits? base (← dropUnderscores false t)
  if n ≤ maxNumber then some n else none

/-- A number in base ten. Only zero starts with a zero. -/
def decimal? : Text → Option Nat
  | ['0'] => some 0
  | '0' :: _ => none
  | t => natural? 10 t

def number? : Text → Option Nat
  | '0' :: 'x' :: rest => natural? 16 rest
  | '0' :: 'o' :: rest => natural? 8 rest
  | '0' :: 'b' :: rest => natural? 2 rest
  | '+' :: rest => decimal? rest
  -- zero is the only number with this sign that is not negative
  | '-' :: rest => if rest = ['0'] then some 0 else none
  | t => decimal? t

/-! ## Strings -/

/-- The character that a letter after a backslash stands for. -/
def escaped? : Char → Option Char
  | 'b' => some '\x08'
  | 't' => some '\t'
  | 'n' => some '\n'
  | 'f' => some '\x0c'
  | 'r' => some '\r'
  | 'e' => some '\x1b'
  | '"' => some '"'
  | '\\' => some '\\'
  | _ => none

/-- The character with a number in base 16. -/
def numbered? (digits : List Char) : Option Char := do
  let n ← Text.ofDigits? 16 digits
  if n.isValidChar then some (Char.ofNat n) else none

/-- An escape after its backslash, and what follows it. -/
def escape? : Text → Option (Char × Text)
  | 'x' :: a :: b :: rest => (numbered? [a, b]).map (·, rest)
  | 'u' :: a :: b :: c :: d :: rest => (numbered? [a, b, c, d]).map (·, rest)
  | 'U' :: a :: b :: c :: d :: e :: f :: g :: h :: rest =>
    (numbered? [a, b, c, d, e, f, g, h]).map (·, rest)
  | c :: rest => (escaped? c).map (·, rest)
  | [] => none

theorem length_escape?_lt {t rest : Text} {c : Char} (h : escape? t = some (c, rest)) :
    rest.length < t.length := by
  unfold escape? at h
  split at h <;> simp only [Option.map_eq_some_iff, Prod.mk.injEq, reduceCtorEq] at h
  all_goals
    obtain ⟨_, _, _, rfl⟩ := h
    simp only [List.length_cons]
    omega

/-- The contents of a basic string after its first quote, and what follows its last one. -/
def basic? : Text → Option (Text × Text)
  | [] => none
  | c :: rest =>
    if c = '"' then some ([], rest)
    else if c = '\\' then
      match h : escape? rest with
      | none => none
      | some (e, rest') =>
        have := length_escape?_lt h
        (basic? rest').map fun (t, after) ↦ (e :: t, after)
    else if isControl c then none
    else (basic? rest).map fun (t, after) ↦ (c :: t, after)
termination_by t => t.length
decreasing_by all_goals simp only [List.length_cons]; omega

/-- The contents of a literal string after its first quote, and what follows its last one. -/
def literal? : Text → Option (Text × Text)
  | [] => none
  | c :: rest =>
    if c = '\'' then some ([], rest)
    else if isControl c then none
    else (literal? rest).map fun (t, after) ↦ (c :: t, after)

/-- The end of a string over several lines, after its first three closing quotes: up to two more
quotes belong to its contents, which then come before the closing ones. -/
def closing (quote : Char) : Text → Text × Text
  | a :: b :: rest =>
    if a = quote ∧ b = quote then ([quote, quote], rest)
    else if a = quote then ([quote], b :: rest)
    else ([], a :: b :: rest)
  | [a] => if a = quote then ([quote], []) else ([], [a])
  | [] => ([], [])

/-- The contents of a basic string over several lines, and what follows it. A backslash at the end
of a line takes away all blanks up to the next other character. -/
def basicLines? : Text → Option (Text × Text)
  | [] => none
  | '"' :: '"' :: '"' :: rest => some (closing '"' rest)
  | '\r' :: '\n' :: rest => (basicLines? rest).map fun (t, after) ↦ ('\r' :: '\n' :: t, after)
  | c :: rest =>
    if c = '\\' then
      -- the end of the line and all blanks after it are left out
      if startsLine (rest.dropWhile isSpace) then
        have := length_dropBlank_le rest
        basicLines? (dropBlank rest)
      else
        match h : escape? rest with
        | none => none
        | some (e, rest') =>
          have := length_escape?_lt h
          (basicLines? rest').map fun (t, after) ↦ (e :: t, after)
    else if isControl c && c ≠ '\n' then none
    else (basicLines? rest).map fun (t, after) ↦ (c :: t, after)
termination_by t => t.length
decreasing_by all_goals simp only [List.length_cons]; omega

/-- The contents of a literal string over several lines, and what follows it. -/
def literalLines? : Text → Option (Text × Text)
  | [] => none
  | '\'' :: '\'' :: '\'' :: rest => some (closing '\'' rest)
  | '\r' :: '\n' :: rest => (literalLines? rest).map fun (t, after) ↦ ('\r' :: '\n' :: t, after)
  | c :: rest =>
    if isControl c && c ≠ '\n' then none
    else (literalLines? rest).map fun (t, after) ↦ (c :: t, after)

/-! ## Lines -/

def key? : Text → Option (Text × Text)
  | '"' :: rest => basic? rest
  | '\'' :: rest => literal? rest
  | t =>
    match t.takeWhile isBareKey with
    | [] => none
    | key => some (key, t.dropWhile isBareKey)

/-- The characters of a number and of nothing that may follow it. -/
def isNumberPart (c : Char) : Bool := !isSpace c && c ≠ '#' && c ≠ '\n' && c ≠ '\r'

def value? : Text → Option (DocumentValue × Text)
  | '"' :: '"' :: '"' :: rest =>
    (basicLines? (dropNewline rest)).map fun (t, after) ↦ (.string t, after)
  | '\'' :: '\'' :: '\'' :: rest =>
    (literalLines? (dropNewline rest)).map fun (t, after) ↦ (.string t, after)
  | '"' :: rest => (basic? rest).map fun (t, after) ↦ (.string t, after)
  | '\'' :: rest => (literal? rest).map fun (t, after) ↦ (.string t, after)
  | t => (number? (t.takeWhile isNumberPart)).map fun n ↦ (.number n, t.dropWhile isNumberPart)

/-- What is after the end of a line on which only blanks and a comment may stand. -/
def lineEnd? (t : Text) : Option Text :=
  let t := t.dropWhile isSpace
  let t := if t.head? = some '#' then t.dropWhile fun c ↦ !isControl c else t
  if t = [] then some []
  else if startsLine t then some (dropNewline t)
  else none

/-- A line with a key, and what is after it. -/
def pair? (t : Text) : Option ((Text × DocumentValue) × Text) := do
  let (key, t) ← key? t
  let '=' :: t := t.dropWhile isSpace | none
  let (value, t) ← value? (t.dropWhile isSpace)
  return ((key, value), ← lineEnd? t)

/-- The lines of a document; `fuel` bounds their number. -/
def lines? : (fuel : Nat) → Text → Option Document
  | _, [] => some []
  | 0, _ => none
  | fuel + 1, t =>
    let t := t.dropWhile isSpace
    match lineEnd? t with
    -- nothing but a comment
    | some rest => lines? fuel rest
    | none =>
      match pair? t with
      | some (pair, rest) => (lines? fuel rest).map (pair :: ·)
      | none => none

/-- Reads a document; a byte order mark at its start is skipped. Every line has at least one
character, so their number is no greater than that of the characters. -/
def parse? (t : Text) : Option Document :=
  let t := if t.head? = some '\ufeff' then t.tail else t
  lines? t.length t

end Document

end NixStore
