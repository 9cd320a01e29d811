import Mathlib
import NixStore.Proofs.Digest.Base32
import NixStore.Proofs.StorePath.Parsing

/-!
# Which texts base 32 writes

A text over the digits is the numeral of a number, and of all texts of its length only that one is.
A number below `256 ^ n` is held by exactly one string of `n` bytes. So the texts that are written
for `n` bytes are those of the right length whose number is below that bound: the digits could write
more, since their bits may be up to four more than those of the bytes. For twenty bytes there are no
bits left over, and every hash part is the text of some bytes.
-/

namespace NixStore

namespace Base32

theorem isDigit_digit : ∀ {n : Nat}, n < 32 → isDigit (digit n) := by
  decide

theorem exists_digit {c : Char} (h : isDigit c) : ∃ n < 32, digit n = c := by
  obtain ⟨n, hn, rfl⟩ := List.getElem_of_mem (isDigit_iff.1 h)
  exact ⟨n, hn, (List.getElem_eq_getD '0').symm⟩

/-- A text over the digits writes some numbers below thirty-two, the last one first. -/
theorem exists_digits {t : Text} (h : ∀ c ∈ t, isDigit c) :
    ∃ ns : List Nat, (∀ n ∈ ns, n < 32) ∧ t = (ns.map digit).reverse := by
  induction t with
  | nil => exact ⟨[], fun _ h ↦ absurd h List.not_mem_nil, rfl⟩
  | cons c t ih =>
    obtain ⟨hc, ht⟩ := List.forall_mem_cons.1 h
    obtain ⟨n, hn, rfl⟩ := exists_digit hc
    obtain ⟨ns, hns, rfl⟩ := ih ht
    refine ⟨ns ++ [n], List.forall_mem_append.2 ⟨hns, List.forall_mem_singleton.2 hn⟩, ?_⟩
    rw [List.map_append, List.reverse_append, List.map_singleton, List.reverse_singleton,
      List.singleton_append]

/-- A text over the digits writes a number that its digits have room for. -/
theorem exists_read? {t : Text} (h : ∀ c ∈ t, isDigit c) :
    ∃ v, read? t = some v ∧ v < 32 ^ t.length := by
  obtain ⟨ns, hns, rfl⟩ := exists_digits h
  refine ⟨_, read?_reverse_digits hns, ?_⟩
  rw [List.length_reverse, List.length_map]
  exact Nat.ofDigits_lt_base_pow_length (by decide) hns

theorem eq_of_read?_eq {t u : Text} (ht : ∀ c ∈ t, isDigit c) (hu : ∀ c ∈ u, isDigit c)
    (hlength : t.length = u.length) (h : read? t = read? u) : t = u := by
  obtain ⟨ns, hns, rfl⟩ := exists_digits ht
  obtain ⟨ms, hms, rfl⟩ := exists_digits hu
  rw [read?_reverse_digits hns, read?_reverse_digits hms] at h
  rw [List.length_reverse, List.length_reverse, List.length_map, List.length_map] at hlength
  rw [Nat.ofDigits_inj_of_len_eq (by decide) hlength hns hms (Option.some.inj h)]

theorem number_lt (bs : Bytes) : number bs < 256 ^ bs.length := by
  rw [number_eq, ← List.length_map UInt8.toNat]
  refine Nat.ofDigits_lt_base_pow_length (by decide) fun n hn ↦ ?_
  obtain ⟨b, -, rfl⟩ := List.mem_map.1 hn
  exact b.toNat_lt

theorem exists_number_eq {n v : Nat} (h : v < 256 ^ n) :
    ∃ bs : Bytes, bs.length = n ∧ number bs = v := by
  induction n generalizing v with
  | zero => exact ⟨[], rfl, (Nat.lt_one_iff.1 h).symm⟩
  | succ n ih =>
    rw [Nat.pow_succ] at h
    obtain ⟨bs, hlength, hnumber⟩ := ih (Nat.div_lt_of_lt_mul (Nat.mul_comm _ _ ▸ h))
    refine ⟨(v % 256).toUInt8 :: bs, congrArg (· + 1) hlength, ?_⟩
    have hbyte : (v % 256).toUInt8.toNat = v % 256 :=
      UInt8.toNat_ofNat_of_lt' (Nat.mod_lt v (by decide))
    rw [number, hnumber, hbyte, Nat.mod_add_div]

theorem isDigit_of_mem_encode {bs : Bytes} {c : Char} (h : c ∈ encode bs) : isDigit c := by
  obtain ⟨n, hn, rfl⟩ := List.mem_map.1 (List.mem_reverse.1 h)
  exact isDigit_digit (lt_of_mem_groups hn)

/-- What is written for `n` bytes are the numerals of the right length below `256 ^ n`. -/
theorem exists_encode_eq_iff {n : Nat} {t : Text} :
    (∃ bs : Bytes, bs.length = n ∧ encode bs = t) ↔
      t.length = encodeLength n ∧ (∀ c ∈ t, isDigit c) ∧ ∃ v, read? t = some v ∧ v < 256 ^ n := by
  constructor
  · rintro ⟨bs, rfl, rfl⟩
    exact ⟨length_encode bs, fun _ ↦ isDigit_of_mem_encode, _, read?_encode bs, number_lt bs⟩
  · rintro ⟨hlength, hdigits, v, hread, hv⟩
    obtain ⟨bs, rfl, rfl⟩ := exists_number_eq hv
    refine ⟨bs, rfl, eq_of_read?_eq (fun _ ↦ isDigit_of_mem_encode) hdigits ?_ ?_⟩
    · rw [length_encode, hlength]
    · rw [read?_encode, hread]

theorem utf8_encode (bs : Bytes) : Text.utf8 (encode bs) = Text.latin1 (encode bs) :=
  Text.utf8_eq_latin1 fun _ h ↦ StorePath.toNat_lt_of_isDigit (isDigit_of_mem_encode h)

theorem exists_encode_eq_hashPart (h : HashPart) :
    ∃ bs : Bytes, bs.length = 20 ∧ encode bs = h.text := by
  obtain ⟨v, hread, hv⟩ := exists_read? h.isDigit_of_mem
  rw [h.length_text] at hv
  refine exists_encode_eq_iff.2 ⟨h.length_text, h.isDigit_of_mem, v, hread, ?_⟩
  exact Nat.lt_of_lt_of_le hv (by norm_num [hashPartLength])

/-- **Base 32 writes the number that the bytes hold.** The digits of a byte string are as many as
its bits fill, and read with the highest first they are the number whose base 256 digits are the
bytes, the lowest first. So byte strings of one length have different texts, and these are all texts
of digits with the right length whose number `n` bytes have room for. What is written for twenty
bytes is accepted as a hash part, and each hash part is that of exactly one such string. -/
theorem encode_is_numeral :
    (∀ bs : Bytes, (encode bs).length = encodeLength bs.length ∧
      (∀ c ∈ encode bs, isDigit c) ∧ read? (encode bs) = some (number bs)) ∧
    (∀ n, encodeLength n = 8 * n ⌈/⌉ 5) ∧
    (∀ n, Set.InjOn encode {bs | bs.length = n}) ∧
    (∀ n, encode '' {bs | bs.length = n} = {t | t.length = encodeLength n ∧
      (∀ c ∈ t, isDigit c) ∧ ∃ v, read? t = some v ∧ v < 256 ^ n}) ∧
    Set.BijOn (fun bs ↦ Text.utf8 (encode bs)) {bs | bs.length = 20}
      {bs | ∃ h, HashPart.ofBytes bs = .ok h} := by
  have hinjective : ∀ n, Set.InjOn encode {bs | bs.length = n} := fun n bs hbs cs hcs ↦
    encode_injective (Eq.trans hbs (Eq.symm hcs))
  refine ⟨fun bs ↦ ⟨length_encode bs, fun _ ↦ isDigit_of_mem_encode, read?_encode bs⟩,
    fun n ↦ ?_, hinjective, fun n ↦ ?_, fun bs hbs ↦ ?_, fun bs hbs cs hcs h ↦ ?_, ?_⟩
  · rw [Nat.ceilDiv_eq_add_pred_div]
    rfl
  · exact Set.ext fun t ↦ exists_encode_eq_iff
  · have hlength : (encode bs).length = hashPartLength := by
      rw [length_encode, hbs]
      rfl
    exact ⟨⟨encode bs, hlength, fun _ ↦ isDigit_of_mem_encode⟩,
      HashPart.ofBytes_eq_ok_iff.2 (utf8_encode bs)⟩
  · exact hinjective 20 hbs hcs (Text.utf8_injective h)
  · rintro bs ⟨h, hread⟩
    obtain ⟨cs, hcs, hencode⟩ := exists_encode_eq_hashPart h
    refine ⟨cs, hcs, ?_⟩
    rw [HashPart.ofBytes_eq_ok_iff.1 hread, ← hencode]
    exact utf8_encode cs

end Base32

end NixStore
