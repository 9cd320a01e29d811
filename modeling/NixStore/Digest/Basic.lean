import NixStore.Digest.Base16
import NixStore.Digest.Base32
import NixStore.Digest.Sha256

/-!
# Digests of archives

The size and the SHA-256 hash of an archive, and the two spellings under which a store may have
recorded that hash.
-/

namespace NixStore

/-- The size and hash of an archive. -/
structure ArchiveDigest where
  /-- The number of bytes. -/
  size : Nat
  /-- The SHA-256 hash. -/
  hash : Bytes
  length_hash : hash.length = 32
deriving DecidableEq

namespace ArchiveDigest

def ofHasher (h : Sha256.Hasher) : ArchiveDigest := ⟨h.size, h.finish, h.length_finish⟩

def ofBytes (bs : Bytes) : ArchiveDigest := ofHasher (Sha256.Hasher.start.update bs)

theorem eq_iff {d e : ArchiveDigest} : d = e ↔ d.size = e.size ∧ d.hash = e.hash := by
  obtain ⟨_, _, _⟩ := d
  obtain ⟨_, _, _⟩ := e
  rw [mk.injEq]

theorem size_ofBytes (bs : Bytes) : (ofBytes bs).size = bs.length := Nat.zero_add _

theorem hash_ofBytes (bs : Bytes) : (ofBytes bs).hash = Sha256.sum bs := rfl

/-- The digest of an archive does not depend on the pieces in which it arrived. -/
theorem ofHasher_foldl (pieces : List Bytes) :
    ofHasher (pieces.foldl Sha256.Hasher.update Sha256.Hasher.start)
      = ofBytes pieces.flatten := by
  rw [Sha256.Hasher.foldl_update, ofBytes]

/-- What stands before the digits of a recorded hash. -/
def scheme : Text := text "sha256:"

def base16 (d : ArchiveDigest) : Text := Base16.encode d.hash

def base32 (d : ArchiveDigest) : Text := Base32.encode d.hash

/-- The hash as a store's metadata names it. -/
def render (d : ArchiveDigest) : Text := scheme ++ d.base32

/-- Whether a recorded hash names this one, in base 16 of any letter case or in base 32. Hashes
of other schemes never match. -/
def isNamedBy (d : ArchiveDigest) (recorded : Text) : Bool :=
  match Text.after? scheme recorded with
  | none => false
  | some digits =>
    -- the two spellings differ in length
    if digits.length = 64 then digits.map Char.toLower == d.base16
    else if digits.length = 52 then digits == d.base32
    else false

end ArchiveDigest

end NixStore
