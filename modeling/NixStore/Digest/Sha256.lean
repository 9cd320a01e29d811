import NixStore.Text.Basic

/-!
# SHA-256

The hash of a byte string that arrives in pieces. A hasher keeps the state after the whole blocks
that it has seen and the bytes that do not fill a block yet; as `absorb` takes blocks from the
front of whatever is pending, the result depends on the bytes only and not on the pieces.
-/

namespace NixStore.Sha256

/-- The eight working words. -/
structure State where
  a : UInt32
  b : UInt32
  c : UInt32
  d : UInt32
  e : UInt32
  f : UInt32
  g : UInt32
  h : UInt32
deriving DecidableEq, Repr

def State.start : State :=
  ⟨0x6a09e667, 0xbb67ae85, 0x3c6ef372, 0xa54ff53a,
    0x510e527f, 0x9b05688c, 0x1f83d9ab, 0x5be0cd19⟩

/-- The constants of the sixty-four rounds. -/
def roundConstants : List UInt32 := [
  0x428a2f98, 0x71374491, 0xb5c0fbcf, 0xe9b5dba5, 0x3956c25b, 0x59f111f1, 0x923f82a4, 0xab1c5ed5,
  0xd807aa98, 0x12835b01, 0x243185be, 0x550c7dc3, 0x72be5d74, 0x80deb1fe, 0x9bdc06a7, 0xc19bf174,
  0xe49b69c1, 0xefbe4786, 0x0fc19dc6, 0x240ca1cc, 0x2de92c6f, 0x4a7484aa, 0x5cb0a9dc, 0x76f988da,
  0x983e5152, 0xa831c66d, 0xb00327c8, 0xbf597fc7, 0xc6e00bf3, 0xd5a79147, 0x06ca6351, 0x14292967,
  0x27b70a85, 0x2e1b2138, 0x4d2c6dfc, 0x53380d13, 0x650a7354, 0x766a0abb, 0x81c2c92e, 0x92722c85,
  0xa2bfe8a1, 0xa81a664b, 0xc24b8b70, 0xc76c51a3, 0xd192e819, 0xd6990624, 0xf40e3585, 0x106aa070,
  0x19a4c116, 0x1e376c08, 0x2748774c, 0x34b0bcb5, 0x391c0cb3, 0x4ed8aa4a, 0x5b9cca4f, 0x682e6ff3,
  0x748f82ee, 0x78a5636f, 0x84c87814, 0x8cc70208, 0x90befffa, 0xa4506ceb, 0xbef9a3f7, 0xc67178f2]

def rotate (x : UInt32) (n : UInt32) : UInt32 := (x >>> n) ||| (x <<< (32 - n))

/-- Four bytes as a word, the most significant byte first. -/
def word (a b c d : UInt8) : UInt32 :=
  (a.toUInt32 <<< 24) ||| (b.toUInt32 <<< 16) ||| (c.toUInt32 <<< 8) ||| d.toUInt32

/-- The words of a string; up to three bytes left over are dropped. -/
def words : Bytes → List UInt32
  | a :: b :: c :: d :: rest => word a b c d :: words rest
  | _ => []

/-- The bytes of a word, the most significant first. -/
def wordBytes (w : UInt32) : Bytes :=
  [(w >>> 24).toUInt8, (w >>> 16).toUInt8, (w >>> 8).toUInt8, w.toUInt8]

/-- The word that follows a schedule. -/
def nextWord (ws : Array UInt32) : UInt32 :=
  let back (n : Nat) := ws.getD (ws.size - n) 0
  let x := back 15
  let y := back 2
  let s := rotate x 7 ^^^ rotate x 18 ^^^ (x >>> 3)
  let t := rotate y 17 ^^^ rotate y 19 ^^^ (y >>> 10)
  back 16 + s + back 7 + t

/-- Extends a schedule by `n` words. -/
def extend : Nat → Array UInt32 → Array UInt32
  | 0, ws => ws
  | n + 1, ws => extend n (ws.push (nextWord ws))

/-- One round with the constant `k` and the scheduled word `w`. -/
def round (s : State) (kw : UInt32 × UInt32) : State :=
  let mixE := rotate s.e 6 ^^^ rotate s.e 11 ^^^ rotate s.e 25
  let choice := (s.e &&& s.f) ^^^ (~~~s.e &&& s.g)
  let t := s.h + mixE + choice + kw.1 + kw.2
  let mixA := rotate s.a 2 ^^^ rotate s.a 13 ^^^ rotate s.a 22
  let majority := (s.a &&& s.b) ^^^ (s.a &&& s.c) ^^^ (s.b &&& s.c)
  ⟨t + mixA + majority, s.a, s.b, s.c, s.d + t, s.e, s.f, s.g⟩

/-- The state after one more block of 64 bytes. -/
def State.compress (s : State) (block : Bytes) : State :=
  -- sixteen words of the block, and forty-eight made from them
  let schedule := extend 48 (words block).toArray
  let t := (roundConstants.zip schedule.toList).foldl round s
  ⟨s.a + t.a, s.b + t.b, s.c + t.c, s.d + t.d, s.e + t.e, s.f + t.f, s.g + t.g, s.h + t.h⟩

/-- Takes the whole blocks at the front of a string into the state; also gives back the rest. -/
def absorb (s : State) (bs : Bytes) : State × Bytes :=
  match h : bs.drop 63 with
  | [] => (s, bs)
  | _ :: rest =>
    have : rest.length < bs.length := by
      have := congrArg List.length h
      simp only [List.length_drop, List.length_cons] at this
      omega
    absorb (s.compress (bs.take 64)) rest
termination_by bs.length

/-- What has been seen of a string that arrives in pieces. -/
structure Hasher where
  state : State
  /-- The bytes since the last whole block. -/
  pending : Bytes
  /-- The number of bytes seen. -/
  size : Nat
deriving DecidableEq, Repr

/-- Nothing seen yet. -/
def Hasher.start : Hasher := ⟨State.start, [], 0⟩

def Hasher.update (h : Hasher) (piece : Bytes) : Hasher :=
  let (state, pending) := absorb h.state (h.pending ++ piece)
  ⟨state, pending, h.size + piece.length⟩

/-- What is put after a string of `size` bytes: a one bit, zeros up to the last eight bytes of a
block, and the number of bits. -/
def padding (size : Nat) : Bytes :=
  0x80 :: List.replicate ((119 - size % 64) % 64) 0 ++
    wordBytes (size * 8 / UInt32.size).toUInt32 ++ wordBytes (size * 8).toUInt32

/-- The words of a state, one after the other. -/
def State.bytes (s : State) : Bytes :=
  [s.a, s.b, s.c, s.d, s.e, s.f, s.g, s.h].flatMap wordBytes

theorem State.length_bytes (s : State) : s.bytes.length = 32 := rfl

def Hasher.finish (h : Hasher) : Bytes := (h.update (padding h.size)).state.bytes

theorem Hasher.length_finish (h : Hasher) : h.finish.length = 32 := State.length_bytes _

def sum (bs : Bytes) : Bytes := (Hasher.start.update bs).finish

/-! ## Pieces -/

theorem absorb_append (s : State) (xs ys : Bytes) :
    absorb s (xs ++ ys) = absorb (absorb s xs).1 ((absorb s xs).2 ++ ys) := by
  fun_induction absorb s xs with
  | case1 => rfl
  | case2 s xs last rest hblock hshorter ih =>
    have hlong : 63 < xs.length := by
      have := congrArg List.length hblock
      simp only [List.length_drop, List.length_cons] at this
      omega
    have hdrop : (xs ++ ys).drop 63 = last :: (rest ++ ys) := by
      rw [List.drop_append_of_le_length (Nat.le_of_lt hlong), hblock, List.cons_append]
    rw [← ih, absorb]
    split
    · next hnil => exact absurd (hdrop.symm.trans hnil) (List.cons_ne_nil _ _)
    · next hcons =>
      obtain ⟨-, rfl⟩ := List.cons.inj (hdrop.symm.trans hcons)
      rw [List.take_append_of_le_length hlong]

theorem Hasher.update_update (h : Hasher) (xs ys : Bytes) :
    (h.update xs).update ys = h.update (xs ++ ys) := by
  simp only [update, ← List.append_assoc, absorb_append h.state (h.pending ++ xs) ys,
    List.length_append, Nat.add_assoc]

theorem Hasher.foldl_update (pieces : List Bytes) :
    pieces.foldl update start = start.update pieces.flatten := by
  have key : ∀ seen, pieces.foldl update (start.update seen)
      = start.update (seen ++ pieces.flatten) := by
    induction pieces with
    | nil => simp
    | cons piece pieces ih =>
      intro seen
      rw [List.foldl_cons, update_update, ih, List.flatten_cons, List.append_assoc]
  have hstart : start.update [] = start := by
    rw [update, absorb]
    rfl
  rw [← List.nil_append pieces.flatten, ← key, hstart]

end NixStore.Sha256
