import NixStore.Text.Basic

/-!
# File paths

A path is a byte string of names between slashes. Of two paths joined, a second one that starts at
the root replaces the first.
-/

namespace NixStore.FilePath

/-- The byte between names. -/
def slash : UInt8 := 0x2F

def isAbsolute (p : Bytes) : Bool := p.head? = some slash

/-- The path `p`, taken from the directory `base`. -/
def join (base p : Bytes) : Bytes :=
  if isAbsolute p then p
  else
    match base.getLast? with
    | none => p
    | some b => if b = slash then base ++ p else base ++ slash :: p

/-- The names between the slashes of a path, empty ones included. -/
def names (p : Bytes) : List Bytes := Text.split slash p

/-- A name behind a path. Between them stands a slash, which the path may end in already. -/
theorem join_eq {base name : Bytes} (hbase : base ≠ []) (hname : slash ∉ name) :
    ∃ front, (base = front ∨ base = front ++ [slash]) ∧
      join base name = front ++ slash :: name := by
  have hrel : isAbsolute name = false := by
    cases name with
    | nil => rfl
    | cons b rest =>
      have hb : b ≠ slash := fun h ↦ hname (h ▸ List.mem_cons_self)
      simpa [isAbsolute] using hb
  obtain ⟨front, last, rfl⟩ : ∃ front last, base = front ++ [last] :=
    ⟨_, _, (base.dropLast_concat_getLast hbase).symm⟩
  rw [join, hrel, List.getLast?_concat]
  by_cases hlast : last = slash
  · exact ⟨front, .inr (by rw [hlast]), by simp [hlast]⟩
  · exact ⟨front ++ [last], .inl rfl, by simp [hlast]⟩

/-- The names of a path and a name behind it. A slash at the end of the path counts as an empty
name only as long as nothing stands behind it. -/
theorem names_join {base name : Bytes} (hbase : base ≠ []) (hname : slash ∉ name) :
    ∃ ns, (names base = ns ∨ names base = ns ++ [[]]) ∧ names (join base name) = ns ++ [name] := by
  obtain ⟨front, hfront, hjoin⟩ := join_eq hbase hname
  refine ⟨names front, ?_, ?_⟩
  · rcases hfront with rfl | rfl
    · exact .inl rfl
    · exact .inr (Text.split_append_singleton List.not_mem_nil front)
  · rw [hjoin]
    exact Text.split_append_singleton hname front

theorem length_lt_length_join {base name : Bytes} (hbase : base ≠ []) (hname : slash ∉ name)
    (hempty : name ≠ []) : base.length < (join base name).length := by
  obtain ⟨front, hfront, hjoin⟩ := join_eq hbase hname
  have hpos := List.length_pos_iff.2 hempty
  have hlen : (join base name).length = front.length + (name.length + 1) := by
    rw [hjoin, List.length_append, List.length_cons]
  rcases hfront with rfl | rfl
  · omega
  · rw [List.length_append, List.length_singleton]
    omega

/-- The greatest length of a path that a system call takes. -/
def maxLength : Nat := 4095

def maxNameLength : Nat := 255

end NixStore.FilePath
