import Mathlib.Data.Nat.Digits.Defs
import Mathlib.Tactic.NormNum
import NixStore.Digest.Base32

/-!
# The number that base 32 writes

A byte string and its digits write the same number, one in base 256 with the lowest byte first, the
other in base 32 with the highest digit first. Both are compared through the bits, whose number does
not change when they are cut into groups. So reading the digits gives the number of the bytes back,
and from the number and the length come the bytes.
-/

namespace NixStore.Base32

/-! ## Bits and bytes -/

theorem ofBits_eq (bs : List Bool) : ofBits bs = Nat.ofDigits 2 (bs.map Bool.toNat) := by
  induction bs with
  | nil => rfl
  | cons b bs ih => rw [ofBits, ih, List.map_cons, Nat.ofDigits_cons]

theorem number_eq (bs : Bytes) : number bs = Nat.ofDigits 256 (bs.map UInt8.toNat) := by
  induction bs with
  | nil => rfl
  | cons b bs ih => rw [number, ih, List.map_cons, Nat.ofDigits_cons]

theorem ofBits_append (xs ys : List Bool) :
    ofBits (xs ++ ys) = ofBits xs + 2 ^ xs.length * ofBits ys := by
  rw [ofBits_eq, List.map_append, Nat.ofDigits_append, List.length_map, ofBits_eq, ofBits_eq]

theorem ofBits_lt (bs : List Bool) : ofBits bs < 2 ^ bs.length := by
  rw [ofBits_eq, ← List.length_map Bool.toNat]
  refine Nat.ofDigits_lt_base_pow_length one_lt_two fun n hn ↦ ?_
  obtain ⟨b, -, rfl⟩ := List.mem_map.1 hn
  exact b.toNat_lt

theorem ofBits_testBit (k n : Nat) : ofBits ((List.range n).map k.testBit) = k % 2 ^ n := by
  induction n with
  | zero => rw [Nat.pow_zero, Nat.mod_one]; rfl
  | succ n ih =>
    rw [List.range_succ, List.map_append, ofBits_append, ih, List.length_map, List.length_range,
      Nat.mod_pow_succ, List.map_singleton, ofBits, ofBits, Nat.toNat_testBit]
    rfl

theorem ofBits_bits (bs : Bytes) : ofBits (bits bs) = number bs := by
  induction bs with
  | nil => rfl
  | cons b bs ih =>
    have hbyte : ofBits (byteBits b) = b.toNat := by
      rw [byteBits, ofBits_testBit, Nat.mod_eq_of_lt b.toNat_lt]
    have hlength : (byteBits b).length = 8 := by rw [byteBits, List.length_map, List.length_range]
    rw [bits, List.flatMap_cons, ofBits_append, ← bits, ih, hbyte, hlength, number]
    norm_num

/-- A byte string is determined by its length and the number that it holds. -/
theorem number_injective {bs cs : Bytes} (hlength : bs.length = cs.length)
    (h : number bs = number cs) : bs = cs := by
  have hdigits : bs.map UInt8.toNat = cs.map UInt8.toNat := by
    rw [number_eq, number_eq] at h
    refine Nat.ofDigits_inj_of_len_eq (by decide) (by simpa using hlength) ?_ ?_ h <;>
      exact fun n hn ↦ by
        obtain ⟨b, -, rfl⟩ := List.mem_map.1 hn
        exact b.toNat_lt
  exact (List.map_inj_right fun _ _ ↦ UInt8.toNat_inj.1).1 hdigits

/-! ## Groups and digits -/

theorem ofDigits_groups (bs : List Bool) : Nat.ofDigits 32 (groups bs) = ofBits bs := by
  fun_induction groups bs with
  | case1 => rfl
  | case2 b rest ih =>
    rw [Nat.ofDigits_cons, ih]
    have hsplit : ofBits (b :: rest)
        = ofBits (b :: rest.take 4) + 2 ^ (b :: rest.take 4).length * ofBits (rest.drop 4) := by
      rw [← ofBits_append, List.cons_append, List.take_append_drop]
    rw [hsplit]
    -- a group that is not full is the last one
    rcases Nat.lt_or_ge rest.length 4 with hshort | hfull
    · rw [List.drop_eq_nil_of_le (Nat.le_of_lt hshort), ofBits, Nat.mul_zero, Nat.mul_zero]
    · rw [List.length_cons, List.length_take_of_le hfull]
      norm_num

theorem lt_of_mem_groups {bs : List Bool} {n : Nat} (h : n ∈ groups bs) : n < 32 := by
  fun_induction groups bs with
  | case1 => cases h
  | case2 b rest ih =>
    rcases List.mem_cons.1 h with rfl | h
    · have hlength : (b :: rest.take 4).length ≤ 5 := Nat.succ_le_succ (List.length_take_le 4 rest)
      exact Nat.lt_of_lt_of_le (ofBits_lt _) (Nat.pow_le_pow_right two_pos hlength)
    · exact ih h

theorem digitValue?_digit : ∀ {n : Nat}, n < 32 → digitValue? (digit n) = some n := by
  decide

/-- Digits are read as the number whose base 32 digits they are, the last one being the lowest. -/
theorem read?_reverse_digits {ns : List Nat} (h : ∀ n ∈ ns, n < 32) :
    read? (ns.map digit).reverse = some (Nat.ofDigits 32 ns) := by
  induction ns with
  | nil => rfl
  | cons n ns ih =>
    obtain ⟨hn, hns⟩ := List.forall_mem_cons.1 h
    have hlast : ((some (Nat.ofDigits 32 ns)).bind fun high ↦
        [digit n].foldlM (fun m c ↦ (digitValue? c).map (32 * m + ·)) high)
        = some (32 * Nat.ofDigits 32 ns + n) := by
      simp [digitValue?_digit hn]
    rw [List.map_cons, List.reverse_cons, read?, List.foldlM_append]
    refine (congrArg (Option.bind · _) (ih hns)).trans (hlast.trans ?_)
    rw [Nat.ofDigits_cons, Nat.add_comm]

/-- The digits of a byte string are read as the number that the bytes hold. -/
theorem read?_encode (bs : Bytes) : read? (encode bs) = some (number bs) := by
  rw [encode, read?_reverse_digits fun _ ↦ lt_of_mem_groups, ofDigits_groups, ofBits_bits]

theorem encode_injective {bs cs : Bytes} (hlength : bs.length = cs.length)
    (h : encode bs = encode cs) : bs = cs := by
  refine number_injective hlength (Option.some.inj ?_)
  rw [← read?_encode, ← read?_encode, h]

end NixStore.Base32
