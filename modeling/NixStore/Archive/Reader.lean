import NixStore.Archive.Format

/-!
# Reading archives

An archive is read back from the front. Each reader gives what it has read together with the rest
of the input, which is shorter, so reading comes to an end. A reader accepts only what the format
writes: lengths of eight bytes, zeros as padding, and the names of a directory in increasing
order.
-/

namespace NixStore.Archive

/-- The number with the given bytes, the lowest first. -/
def ofLittleEndian : Bytes → Nat
  | [] => 0
  | b :: rest => b.toNat + 256 * ofLittleEndian rest

/-- What was read from the front of an input, and the rest of it. -/
structure Parsed (α : Type) (input : Bytes) where
  value : α
  rest : Bytes
  shorter : rest.length < input.length

def token? (bs : Bytes) : Option (Parsed Bytes bs) :=
  let size := ofLittleEndian (bs.take 8)
  let data := (bs.drop 8).take size
  let zeros := padding size
  let after := (bs.drop 8).drop size
  if h : 8 ≤ bs.length ∧ data.length = size ∧ after.take zeros.length = zeros then
    some ⟨data, after.drop zeros.length, by simp only [after, List.length_drop]; omega⟩
  else none

/-- Reads a token that is a word of the format. -/
def word? (s : String) (bs : Bytes) : Option (Parsed Unit bs) := do
  let p ← token? bs
  if p.value = Text.utf8 (text s) then some ⟨(), p.rest, p.shorter⟩ else none

/-- Reads the contents of a file after its words, up to its end. -/
def contents? (executable : Bool) (bs : Bytes) : Option (Parsed ArchiveNode bs) := do
  let data ← token? bs
  let close ← word? ")" data.rest
  return ⟨.file executable data.value, close.rest, Nat.lt_trans close.shorter data.shorter⟩

def file? (bs : Bytes) : Option (Parsed ArchiveNode bs) := do
  let first ← token? bs
  if first.value = Text.utf8 (text "contents") then
    let node ← contents? false first.rest
    return ⟨node.value, node.rest, Nat.lt_trans node.shorter first.shorter⟩
  else if first.value = Text.utf8 (text "executable") then
    let empty ← word? "" first.rest
    let second ← word? "contents" empty.rest
    let node ← contents? true second.rest
    return ⟨node.value, node.rest,
      Nat.lt_trans node.shorter (Nat.lt_trans second.shorter
        (Nat.lt_trans empty.shorter first.shorter))⟩
  else none

def link? (bs : Bytes) : Option (Parsed ArchiveNode bs) := do
  let first ← word? "target" bs
  let target ← token? first.rest
  let close ← word? ")" target.rest
  return ⟨.link target.value, close.rest,
    Nat.lt_trans close.shorter (Nat.lt_trans target.shorter first.shorter)⟩

/-- Whether a name may follow another one in a directory. -/
def follows (previous : Option Bytes) (name : Bytes) : Bool :=
  match previous with
  | none => true
  | some p => decide (p < name)

mutual

def node? (bs : Bytes) : Option (Parsed ArchiveNode bs) := do
  let start ← word? "(" bs
  let type ← word? "type" start.rest
  let kind ← token? type.rest
  have shorter : kind.rest.length < bs.length :=
    Nat.lt_trans kind.shorter (Nat.lt_trans type.shorter start.shorter)
  if kind.value = Text.utf8 (text "regular") then
    let node ← file? kind.rest
    return ⟨node.value, node.rest, Nat.lt_trans node.shorter shorter⟩
  else if kind.value = Text.utf8 (text "symlink") then
    let node ← link? kind.rest
    return ⟨node.value, node.rest, Nat.lt_trans node.shorter shorter⟩
  else if kind.value = Text.utf8 (text "directory") then
    let entries ← entries? none kind.rest
    return ⟨.directory entries.value, entries.rest, Nat.lt_trans entries.shorter shorter⟩
  else none
termination_by bs.length

/-- Reads the entries of a directory after the one named `previous`, and the end of the
directory. -/
def entries? (previous : Option Bytes) (bs : Bytes) :
    Option (Parsed (List (Bytes × ArchiveNode)) bs) := do
  let first ← token? bs
  if first.value = Text.utf8 (text ")") then return ⟨[], first.rest, first.shorter⟩
  else if first.value = Text.utf8 (text "entry") then
    let start ← word? "(" first.rest
    let key ← word? "name" start.rest
    let name ← token? key.rest
    let value ← word? "node" name.rest
    have shorter : value.rest.length < bs.length :=
      Nat.lt_trans value.shorter (Nat.lt_trans name.shorter (Nat.lt_trans key.shorter
        (Nat.lt_trans start.shorter first.shorter)))
    if follows previous name.value then
      let node ← node? value.rest
      let close ← word? ")" node.rest
      have shorter : close.rest.length < bs.length :=
        Nat.lt_trans close.shorter (Nat.lt_trans node.shorter shorter)
      let others ← entries? (some name.value) close.rest
      return ⟨(name.value, node.value) :: others.value, others.rest,
        Nat.lt_trans others.shorter shorter⟩
    else none
  else none
termination_by bs.length

end

/-- Reads an archive from the front of an input, and gives the rest. -/
def read? (bs : Bytes) : Option (ArchiveNode × Bytes) := do
  let start ← word? "nix-archive-1" bs
  let node ← node? start.rest
  return (node.value, node.rest)

end NixStore.Archive
