import NixStore.Moment

/-!
# Moments and their seconds

The distance of a moment from the beginning of 1970 is the absolute value of its nanoseconds since
then, and its seconds fit into an unsigned number. Dropping the fraction of the distance rounds
toward 1970. So a signed number of seconds always stands for the moment with these seconds, and any
moment gives the number of its whole seconds, but for the earliest: the distance of that one, taken
as a signed number, is the least there is, whose negation is out of range.
-/

namespace NixStore.Moment

theorem magnitude_of_nonneg {t : Int64} (h : 0 ≤ t) : magnitude t = t.toUInt64 := by
  rw [magnitude, if_neg (Int64.not_lt.2 h)]

theorem magnitude_of_neg {t : Int64} (h : t < 0) : magnitude t = (0 - t).toUInt64 := if_pos h

theorem toNat_magnitude (t : Int64) : ((magnitude t).toNat : Int) = t.toInt.natAbs := by
  have hlt := t.toBitVec.isLt
  rw [← Int64.toInt_toBitVec, ← UInt64.toNat_toBitVec]
  by_cases h : t < 0
  · have hneg : t.toBitVec.toInt < 0 := Int64.lt_iff_toInt_lt.1 h
    rw [magnitude_of_neg h, Int64.toBitVec_toUInt64, Int64.toBitVec_sub, BitVec.toNat_sub]
    rw [BitVec.toInt_eq_toNat_cond] at hneg ⊢
    simp only [Int64.toBitVec_zero, BitVec.toNat_zero] at *
    omega
  · have hpos : 0 ≤ t.toBitVec.toInt := Int64.le_iff_toInt_le.1 (Int64.not_lt.1 h)
    rw [magnitude_of_nonneg (Int64.not_lt.1 h), Int64.toBitVec_toUInt64]
    rw [BitVec.toInt_eq_toNat_cond] at hpos ⊢
    omega

/-! ## From seconds -/

theorem ofUnix?_eq (t : Int64) : ofUnix? t = some ⟨t, 0⟩ := by
  have hmagnitude := toNat_magnitude t
  have hepoch : epoch.seconds.toInt = 0 := rfl
  rw [ofUnix?]
  by_cases h : 0 ≤ t
  · have hsum : epoch.seconds.toInt + (magnitude t).toNat = t.toInt := by
      have : 0 ≤ t.toInt := Int64.le_iff_toInt_le.1 h
      omega
    rw [if_pos h, later?]
    simp only [hsum, t.toInt_le, if_true, Int64.ofInt_toInt]
    rfl
  · have hdifference : epoch.seconds.toInt - (magnitude t).toNat = t.toInt := by
      have : t.toInt < 0 := Int64.lt_iff_toInt_lt.1 (Int64.not_le.1 h)
      omega
    rw [if_neg h, earlier?]
    simp only [hdifference, t.minValue_le_toInt, if_true, Int64.ofInt_toInt]
    rfl

theorem ofUnix_eq (t : Int64) : ofUnix t = ⟨t, 0⟩ := by
  rw [ofUnix, ofUnix?_eq, Option.getD_some]

/-! ## To seconds -/

/-- The negative of the distance of a number below zero is that number. -/
theorem negate?_magnitude {t : Int64} (hneg : t < 0) (h : t ≠ Int64.minValue) :
    negate? (magnitude t).toInt64 = some t := by
  have hne : 0 - t ≠ Int64.minValue := fun heq ↦ by
    have ht : t = -Int64.minValue := by rw [← heq, Int64.zero_sub, Int64.neg_neg]
    exact h ht
  rw [magnitude_of_neg hneg, Int64.toInt64_toUInt64, negate?, if_neg hne, Int64.zero_sub,
    Int64.neg_neg]

/-- One second less than the distance of a number below zero can always be negated. -/
theorem negate?_magnitude_sub_one {t : Int64} (hneg : t < 0) :
    negate? (magnitude t - 1).toInt64 = some (t + 1) := by
  have hsub : (magnitude t - 1).toInt64 = -(t + 1) := by
    rw [magnitude_of_neg hneg, UInt64.toInt64_sub, Int64.toInt64_toUInt64, Int64.zero_sub,
      Int64.neg_add]
    rfl
  have hne : -(t + 1) ≠ Int64.minValue := fun heq ↦ by
    have hnext : t + 1 = -Int64.minValue := by rw [← heq, Int64.neg_neg]
    have ht : t = Int64.maxValue := by
      rw [← Int64.add_sub_cancel t 1, hnext]
      rfl
    rw [ht] at hneg
    exact absurd hneg (by decide)
  rw [hsub, negate?, if_neg hne, Int64.neg_neg]

variable {m : Moment}

theorem toUnix?_of_nonneg (h : 0 ≤ m.seconds) : m.toUnix? = some m.seconds := by
  rw [toUnix?, sinceEpoch, if_pos h]
  simp only [magnitude_of_nonneg h, Int64.toInt64_toUInt64]

theorem toUnix?_of_whole (h : m.nanoseconds = 0) (hne : m.seconds ≠ Int64.minValue) :
    m.toUnix? = some m.seconds := by
  by_cases hpos : 0 ≤ m.seconds
  · exact toUnix?_of_nonneg hpos
  · rw [toUnix?, sinceEpoch, if_neg hpos, if_pos h]
    exact negate?_magnitude (Int64.not_le.1 hpos) hne

/-- Before 1970 the whole seconds of a moment with a fraction are those of the next whole one. -/
theorem toUnix?_of_fraction (hneg : m.seconds < 0) (h : m.nanoseconds ≠ 0) :
    m.toUnix? = some (m.seconds + 1) := by
  rw [toUnix?, sinceEpoch, if_neg (Int64.not_le.2 hneg), if_neg h]
  exact negate?_magnitude_sub_one hneg

/-- The earliest moment is the only one without seconds. -/
theorem toUnix?_eq_none_iff : m.toUnix? = none ↔ m = earliest := by
  constructor
  · intro hnone
    have hwhole : m.nanoseconds = 0 := by
      by_cases hpos : 0 ≤ m.seconds
      · rw [toUnix?_of_nonneg hpos] at hnone
        cases hnone
      · refine Decidable.byContradiction fun hfraction ↦ ?_
        rw [toUnix?_of_fraction (Int64.not_le.1 hpos) hfraction] at hnone
        cases hnone
    have hleast : m.seconds = Int64.minValue := Decidable.byContradiction fun hne ↦ by
      rw [toUnix?_of_whole hwhole hne] at hnone
      cases hnone
    rw [earliest, ← hleast, ← hwhole]
  · rintro rfl
    decide

theorem ofUnix_toUnix? {t : Int64} (ht : m.toUnix? = some t) (hwhole : m.nanoseconds = 0) :
    ofUnix t = m := by
  by_cases hleast : m = earliest
  · rw [toUnix?_eq_none_iff.2 hleast] at ht
    cases ht
  · have hne : m.seconds ≠ Int64.minValue := fun heq ↦ hleast (by rw [earliest, ← heq, ← hwhole])
    rw [toUnix?_of_whole hwhole hne] at ht
    rw [ofUnix_eq, ← Option.some.inj ht, ← hwhole]

/-- How many nanoseconds after the beginning of 1970 a moment is. -/
def inNanoseconds (m : Moment) : Int := m.seconds.toInt * nanosecondsPerSecond + m.nanoseconds.val

theorem toInt_add_one {t : Int64} (h : t < 0) : (t + 1).toInt = t.toInt + 1 := by
  have hneg : t.toInt < 0 := Int64.lt_iff_toInt_lt.1 h
  have hleast := t.minValue_le_toInt
  rw [Int64.toInt_minValue] at hleast
  rw [Int64.toInt_add]
  exact Int.bmod_eq_of_le (by simp only [Int64.toInt_one]; omega)
    (by simp only [Int64.toInt_one]; omega)

/-- The seconds of a moment are its nanoseconds divided and rounded toward 1970. -/
theorem toInt_toUnix? {t : Int64} (ht : m.toUnix? = some t) :
    t.toInt = m.inNanoseconds.tdiv nanosecondsPerSecond := by
  have hunit : (nanosecondsPerSecond : Int) = 1000000000 := rfl
  have hfraction : (m.nanoseconds.val : Int) < nanosecondsPerSecond :=
    Int.ofNat_lt.2 m.nanoseconds.isLt
  rw [inNanoseconds]
  rw [hunit] at hfraction ⊢
  by_cases hpos : 0 ≤ m.seconds
  · have hnonneg : 0 ≤ m.seconds.toInt := Int64.le_iff_toInt_le.1 hpos
    rw [toUnix?_of_nonneg hpos] at ht
    rw [← Option.some.inj ht, Int.tdiv_eq_ediv_of_nonneg (by omega)]
    omega
  · have hneg : m.seconds < 0 := Int64.not_le.1 hpos
    have hless : m.seconds.toInt < 0 := Int64.lt_iff_toInt_lt.1 hneg
    -- the quotient of a negative number is rounded up
    rw [← Int.neg_neg (_ + _), Int.neg_tdiv, Int.tdiv_eq_ediv_of_nonneg (by omega)]
    by_cases hwhole : m.nanoseconds = 0
    · have hseconds : t = m.seconds := by
        have heq := ofUnix_toUnix? ht hwhole
        rw [ofUnix_eq] at heq
        exact congrArg seconds heq
      rw [hseconds, hwhole, Fin.val_zero]
      omega
    · have hsome : 0 < m.nanoseconds.val := Nat.pos_of_ne_zero (Fin.val_ne_of_ne hwhole)
      rw [toUnix?_of_fraction hneg hwhole] at ht
      rw [← Option.some.inj ht, toInt_add_one hneg]
      omega

/-- **Seconds come back from their moment**, all but the least. Every signed number of seconds
stands for a moment, at the distance of its absolute value from the beginning of 1970. On the way
back a single operation can leave its range: the negation, exactly for the earliest moment. -/
theorem seconds_come_back (t : Int64) :
    ofUnix? t = some (ofUnix t) ∧
    (∃ d : UInt64, (d.toNat : Int) = t.toInt.natAbs ∧
      (ofUnix t).sinceEpoch = if 0 ≤ t then .ok ⟨d, 0⟩ else .error ⟨d, 0⟩) ∧
    ((ofUnix t).toUnix? = some t ↔ t ≠ Int64.minValue) ∧
    ((ofUnix t).toUnix? = none ↔ t = Int64.minValue) := by
  have hnone : (⟨t, 0⟩ : Moment).toUnix? = none ↔ t = Int64.minValue :=
    toUnix?_eq_none_iff.trans ⟨congrArg seconds, congrArg (Moment.mk · 0)⟩
  rw [ofUnix?_eq, ofUnix_eq]
  refine ⟨rfl, ⟨magnitude t, toNat_magnitude t, rfl⟩, ⟨fun hsome hleast ↦ ?_, ?_⟩, hnone⟩
  · rw [hnone.2 hleast] at hsome
    cases hsome
  · exact toUnix?_of_whole (m := ⟨t, 0⟩) rfl

/-- The least number of seconds stands for a moment, and does not come back from it. -/
theorem not_seconds_come_back_earliest :
    ofUnix? Int64.minValue = some earliest ∧ (ofUnix Int64.minValue).toUnix? = none := by
  decide

end NixStore.Moment
