/-!
# Bytes and text

Names on disk, file contents and archives are byte strings; names in a store database and in a
configuration are text. Both are plain lists, so that every fact about them is a fact about lists,
and the lexicographic order of lists is the order in which a store sorts its paths: code points
compare as their encodings do.
-/

namespace NixStore

abbrev Bytes := List UInt8

abbrev Text := List Char

abbrev text (s : String) : Text := s.toList

namespace Text

/-- The bytes of a text all of whose characters are below 256, one byte each. Other characters
lose their high bits. -/
def latin1 (t : Text) : Bytes := t.map fun c ↦ c.toNat.toUInt8

/-- Each byte as the character of the same number. -/
def ofLatin1 (bs : Bytes) : Text := bs.map fun b ↦ Char.ofNat b.toNat

/-- Splits a list at its separators; `piece` holds what came since the last one, in reverse. -/
def splitFrom {α : Type} [DecidableEq α] (separator : α) (piece : List α) : List α → List (List α)
  | [] => [piece.reverse]
  | a :: rest =>
    if a = separator then piece.reverse :: splitFrom separator [] rest
    else splitFrom separator (a :: piece) rest

/-- The pieces of a list between its separators, empty ones included. -/
def split {α : Type} [DecidableEq α] (separator : α) (whole : List α) : List (List α) :=
  splitFrom separator [] whole

theorem splitFrom_append {α : Type} [DecidableEq α] (separator : α) (piece xs ys : List α) :
    splitFrom separator piece (xs ++ separator :: ys)
      = splitFrom separator piece xs ++ split separator ys := by
  induction xs generalizing piece with
  | nil => simp [splitFrom, split]
  | cons x xs ih =>
    rw [List.cons_append, splitFrom, splitFrom]
    by_cases h : x = separator
    · rw [if_pos h, if_pos h, ih, List.cons_append]
    · rw [if_neg h, if_neg h, ih]

theorem splitFrom_of_not_mem {α : Type} [DecidableEq α] {separator : α} {xs : List α}
    (h : separator ∉ xs) (piece : List α) :
    splitFrom separator piece xs = [piece.reverse ++ xs] := by
  induction xs generalizing piece with
  | nil => simp [splitFrom]
  | cons x xs ih =>
    obtain ⟨hx, hxs⟩ := not_or.1 (mt List.mem_cons.2 h)
    rw [splitFrom, if_neg (Ne.symm hx), ih hxs, List.reverse_cons, List.append_assoc]
    rfl

theorem split_append_singleton {α : Type} [DecidableEq α] {separator : α} {ys : List α}
    (h : separator ∉ ys) (xs : List α) :
    split separator (xs ++ separator :: ys) = split separator xs ++ [ys] := by
  have hys : split separator ys = [ys] := splitFrom_of_not_mem h []
  rw [split, splitFrom_append, hys, split]

/-- What follows `start` in a list that begins with it. -/
def after? {α : Type} [DecidableEq α] : (start whole : List α) → Option (List α)
  | [], whole => some whole
  | _ :: _, [] => none
  | a :: start, b :: whole => if a = b then after? start whole else none

theorem after?_eq_some_iff {α : Type} [DecidableEq α] {start whole rest : List α} :
    after? start whole = some rest ↔ whole = start ++ rest := by
  induction start generalizing whole with
  | nil => simp [after?, eq_comm]
  | cons a start ih =>
    cases whole with
    | nil => simp [after?]
    | cons b whole =>
      by_cases h : a = b
      · subst h
        simp [after?, ih]
      · simp [after?, h, eq_comm]

end Text

end NixStore
