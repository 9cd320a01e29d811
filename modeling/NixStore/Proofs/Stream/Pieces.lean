import NixStore.Stream.Segments

/-!
# Bytes in pieces

Bytes are cut into pieces from their front, so more bytes behind them change the last piece only
(`pieces_append`): that is what lets the pieces of some bytes be told while these still come. Every
proof goes by the same three cases, no bytes, a single piece, or a full piece with others behind it.
-/

namespace NixStore

section

variable {size : Nat} {bytes : Bytes}

theorem pieces_nil (size : Nat) : pieces size [] = [] := by rw [pieces]

theorem pieces_of_ne_nil (hpos : 0 < size) (h : bytes ≠ []) :
    pieces size bytes = bytes.take size :: pieces size (bytes.drop size) := by
  obtain ⟨size, rfl⟩ := Nat.exists_eq_succ_of_ne_zero (Nat.ne_of_gt hpos)
  cases bytes with
  | nil => exact absurd rfl h
  | cons b rest =>
    rw [pieces]
    rfl

theorem pieces_of_length_le (h : bytes ≠ []) (hle : bytes.length ≤ size) :
    pieces size bytes = [bytes] := by
  have hpos := Nat.lt_of_lt_of_le (List.length_pos_iff.2 h) hle
  rw [pieces_of_ne_nil hpos h, List.take_of_length_le hle, List.drop_eq_nil_of_le hle, pieces_nil]

theorem pieces_append_of_length_eq (hpos : 0 < size) (h : bytes.length = size) (more : Bytes) :
    pieces size (bytes ++ more) = bytes :: pieces size more := by
  subst h
  have hne : bytes ++ more ≠ [] := by
    intro hnil
    rw [(List.append_eq_nil_iff.1 hnil).1] at hpos
    exact Nat.lt_irrefl 0 hpos
  rw [pieces_of_ne_nil hpos hne, List.take_left, List.drop_left]

/-- Some bytes are none, or a single piece, or a piece of full size with others behind it. -/
theorem pieces_cases (size : Nat) (bytes : Bytes) :
    bytes = [] ∨ (bytes ≠ [] ∧ bytes.length ≤ size) ∨
      ∃ first rest, bytes = first ++ rest ∧ first.length = size ∧ rest ≠ [] := by
  by_cases hnil : bytes = []
  · exact .inl hnil
  · by_cases hle : bytes.length ≤ size
    · exact .inr (.inl ⟨hnil, hle⟩)
    · refine .inr (.inr ⟨bytes.take size, bytes.drop size, (List.take_append_drop ..).symm, ?_, ?_⟩)
      · rw [List.length_take]
        omega
      · rw [ne_eq, List.drop_eq_nil_iff]
        exact hle

theorem pieces_ne_nil (h : bytes ≠ []) : pieces size bytes ≠ [] := by
  cases bytes with
  | nil => exact absurd rfl h
  | cons b rest =>
    rw [pieces]
    exact List.cons_ne_nil _ _

/-- What holds of no bytes and of a single piece, and of bytes when it holds of those behind their
first piece, holds of all. -/
theorem pieces_induction {P : Bytes → Prop} (hpos : 0 < size) (nil : P [])
    (single : ∀ bytes, bytes ≠ [] → bytes.length ≤ size → P bytes)
    (cons : ∀ first rest, first.length = size → rest ≠ [] → P rest → P (first ++ rest))
    (bytes : Bytes) : P bytes := by
  induction hlen : bytes.length using Nat.strongRecOn generalizing bytes with
  | ind n ih =>
    rcases pieces_cases size bytes with rfl | ⟨hne, hle⟩ | ⟨first, rest, rfl, hfirst, hne⟩
    · exact nil
    · exact single bytes hne hle
    · refine cons first rest hfirst hne (ih _ ?_ rest rfl)
      rw [← hlen, List.length_append, hfirst]
      omega

/-- The last piece, if there is any. -/
def lastPiece (size : Nat) (bytes : Bytes) : Bytes := (pieces size bytes).getLast?.getD []

theorem lastPiece_nil (size : Nat) : lastPiece size [] = [] := by
  rw [lastPiece, pieces_nil]
  rfl

theorem lastPiece_of_length_le (hle : bytes.length ≤ size) : lastPiece size bytes = bytes := by
  by_cases h : bytes = []
  · rw [h, lastPiece_nil]
  · rw [lastPiece, pieces_of_length_le h hle]
    rfl

theorem dropLast_pieces_of_length_le (hle : bytes.length ≤ size) :
    (pieces size bytes).dropLast = [] := by
  by_cases h : bytes = []
  · rw [h, pieces_nil]
    rfl
  · rw [pieces_of_length_le h hle]
    rfl

theorem lastPiece_append_of_length_eq (hpos : 0 < size) (h : bytes.length = size) {more : Bytes}
    (hmore : more ≠ []) : lastPiece size (bytes ++ more) = lastPiece size more := by
  rw [lastPiece, pieces_append_of_length_eq hpos h,
    List.getLast?_cons_of_ne_nil (pieces_ne_nil hmore)]
  rfl

theorem dropLast_pieces_append_of_length_eq (hpos : 0 < size) (h : bytes.length = size)
    {more : Bytes} (hmore : more ≠ []) :
    (pieces size (bytes ++ more)).dropLast = bytes :: (pieces size more).dropLast := by
  rw [pieces_append_of_length_eq hpos h, List.dropLast_cons_of_ne_nil (pieces_ne_nil hmore)]

/-- More bytes change the last piece only. -/
theorem pieces_append (hpos : 0 < size) (bytes more : Bytes) :
    pieces size (bytes ++ more)
      = (pieces size bytes).dropLast ++ pieces size (lastPiece size bytes ++ more) := by
  induction bytes using pieces_induction hpos with
  | nil => rw [pieces_nil, lastPiece_nil]; rfl
  | single bytes h hle =>
    rw [dropLast_pieces_of_length_le hle, lastPiece_of_length_le hle]
    rfl
  | cons first rest hfirst hne ih =>
    rw [List.append_assoc, pieces_append_of_length_eq hpos hfirst, ih,
      dropLast_pieces_append_of_length_eq hpos hfirst hne,
      lastPiece_append_of_length_eq hpos hfirst hne]
    rfl

theorem flatten_pieces (hpos : 0 < size) (bytes : Bytes) : (pieces size bytes).flatten = bytes := by
  induction bytes using pieces_induction hpos with
  | nil => rw [pieces_nil]; rfl
  | single bytes h hle => rw [pieces_of_length_le h hle, List.flatten_singleton]
  | cons first rest hfirst hne ih =>
    rw [pieces_append_of_length_eq hpos hfirst, List.flatten_cons, ih]

theorem pieces_eq (hpos : 0 < size) (bytes : Bytes) :
    pieces size bytes = (pieces size bytes).dropLast ++ pieces size (lastPiece size bytes) := by
  have h := pieces_append hpos bytes []
  rwa [List.append_nil, List.append_nil] at h

theorem length_lastPiece_le (hpos : 0 < size) (bytes : Bytes) :
    (lastPiece size bytes).length ≤ size := by
  induction bytes using pieces_induction hpos with
  | nil =>
    rw [lastPiece_nil]
    exact Nat.zero_le _
  | single bytes h hle => rwa [lastPiece_of_length_le hle]
  | cons first rest hfirst hne ih => rwa [lastPiece_append_of_length_eq hpos hfirst hne]

theorem length_of_mem_dropLast_pieces (hpos : 0 < size) (bytes : Bytes) :
    ∀ piece ∈ (pieces size bytes).dropLast, piece.length = size := by
  induction bytes using pieces_induction hpos with
  | nil => simp [pieces_nil]
  | single bytes h hle => simp [dropLast_pieces_of_length_le hle]
  | cons first rest hfirst hne ih =>
    rw [dropLast_pieces_append_of_length_eq hpos hfirst hne]
    exact List.forall_mem_cons.2 ⟨hfirst, ih⟩

theorem length_pieces (hpos : 0 < size) (bytes : Bytes) :
    (pieces size bytes).length = (bytes.length + size - 1) / size := by
  induction bytes using pieces_induction hpos with
  | nil =>
    rw [pieces_nil, List.length_nil, List.length_nil, Nat.zero_add,
      Nat.div_eq_of_lt (Nat.sub_one_lt_of_lt hpos)]
  | single bytes h hle =>
    have hlen := List.length_pos_iff.2 h
    rw [pieces_of_length_le h hle, List.length_singleton]
    exact (Nat.div_eq_of_lt_le (by omega) (by omega)).symm
  | cons first rest hfirst hne ih =>
    have hlen := List.length_pos_iff.2 hne
    have hsum : first.length + rest.length + size - 1 = rest.length + size - 1 + size := by omega
    rw [pieces_append_of_length_eq hpos hfirst, List.length_cons, ih, List.length_append, hsum,
      Nat.add_div_right _ hpos]

theorem dropLast_pieces_append (hpos : 0 < size) (bytes : Bytes) {more : Bytes} (h : more ≠ []) :
    (pieces size (bytes ++ more)).dropLast
      = (pieces size bytes).dropLast ++ (pieces size (lastPiece size bytes ++ more)).dropLast := by
  have hne : lastPiece size bytes ++ more ≠ [] := List.append_ne_nil_of_right_ne_nil _ h
  rw [pieces_append hpos, List.dropLast_append_of_ne_nil (pieces_ne_nil hne)]

theorem lastPiece_append (hpos : 0 < size) (bytes : Bytes) {more : Bytes} (h : more ≠ []) :
    lastPiece size (bytes ++ more) = lastPiece size (lastPiece size bytes ++ more) := by
  have hne : lastPiece size bytes ++ more ≠ [] := List.append_ne_nil_of_right_ne_nil _ h
  change (pieces size (bytes ++ more)).getLast?.getD [] = (pieces size _).getLast?.getD []
  rw [pieces_append hpos, List.getLast?_append,
    List.getLast?_eq_some_getLast (pieces_ne_nil hne)]
  rfl

end

end NixStore
