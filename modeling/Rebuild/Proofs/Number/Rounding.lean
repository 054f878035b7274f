import Mathlib.Algebra.Order.Ring.Nat
import Mathlib.Tactic.Linarith
import Mathlib.Tactic.Ring
import Rebuild.Number.Binary64

/-!
# Rounding

A ratio is rounded to a count of units that is close to it. So a product of
rounded numbers is not much greater than the product of the numbers, and it
is finite if that product is some way below the limit of finite numbers.
-/

set_option autoImplicit false

namespace Rebuild.Binary64

theorem hiddenBit_eq : hiddenBit = 4503599627370496 := rfl

theorem infinityBits_eq : infinityBits = 2047 * hiddenBit := rfl

@[irreducible] def unitExponent : Nat := 1074

theorem unitExponent_eq : unitExponent = 1074 := by rw [unitExponent]

theorem unitsPerOne_eq : unitsPerOne = 2 ^ unitExponent := by
  unfold unitsPerOne unitExponent
  generalize 1074 = n
  exact Nat.pow_eq

theorem unitsPerOne_pos : 0 < unitsPerOne := by
  rw [unitsPerOne_eq]
  positivity

/-! ## Fields -/

theorem magnitude_ofFields (negative : Bool) (magnitude : Nat) :
    (ofFields negative magnitude).magnitude = min magnitude infinityBits := by
  have hlimit : min magnitude infinityBits < 9223372036854775808 :=
    Nat.lt_of_le_of_lt (Nat.min_le_right _ _) (by decide)
  rw [ofFields, Binary64.magnitude, UInt64.toNat_ofNat']
  cases negative with
  | true =>
    simp only [if_true]
    change (9223372036854775808 + min magnitude infinityBits) % 18446744073709551616 %
      9223372036854775808 = _
    omega
  | false =>
    simp only [Bool.false_eq_true, if_false]
    change (0 + min magnitude infinityBits) % 18446744073709551616 % 9223372036854775808 = _
    omega

theorem magnitude_neg (x : Binary64) : x.neg.magnitude = x.magnitude := by
  rw [magnitude, magnitude, neg, UInt64.toNat_xor]
  exact (Nat.xor_mod_two_pow (n := 63)).trans (by simp)

theorem isFinite_iff (x : Binary64) : x.isFinite = true ↔ x.magnitude < infinityBits := by
  rw [isFinite, decide_eq_true_iff]

theorem units_of_magnitude {x : Binary64} {significand shift : Nat}
    (hx : x.magnitude = significand + shift * hiddenBit) (hlow : hiddenBit ≤ significand)
    (hhigh : significand ≤ 2 * hiddenBit) : x.units = significand * 2 ^ shift := by
  have hpos : 0 < hiddenBit := by decide
  rw [units, hx]
  rcases Nat.lt_or_eq_of_le hhigh with hlt | rfl
  · have hsplit : significand + shift * hiddenBit =
        (significand - hiddenBit) + hiddenBit * (shift + 1) := by
      rw [Nat.mul_add, Nat.mul_one, Nat.mul_comm hiddenBit]
      omega
    have hfraction : significand - hiddenBit < hiddenBit := by omega
    rw [hsplit, Nat.add_mul_div_left _ _ hpos, Nat.div_eq_of_lt hfraction, Nat.add_mul_mod_self_left,
      Nat.mod_eq_of_lt hfraction, Nat.zero_add, if_neg (Nat.succ_ne_zero shift),
      Nat.add_sub_cancel' hlow, Nat.pow_eq]
    rfl
  · have hsplit : 2 * hiddenBit + shift * hiddenBit = hiddenBit * (shift + 2) := by ring
    rw [hsplit, Nat.mul_div_cancel_left _ hpos, Nat.mul_mod_right,
      if_neg (Nat.succ_ne_zero (shift + 1)), Nat.add_zero, Nat.pow_eq]
    change hiddenBit * 2 ^ (shift + 1) = _
    ring

theorem divideToEven_close (num : Nat) {den : Nat} (hden : 0 < den) :
    2 * den * divideToEven num den ≤ 2 * num + den := by
  have hdiv := Nat.div_add_mod num den
  rw [divideToEven]
  generalize num / den = q at *
  generalize num % den = r at *
  subst hdiv
  split
  · rename_i h
    have hup : den ≤ 2 * r := h.elim Nat.le_of_lt fun h => Nat.le_of_eq h.1.symm
    nlinarith
  · nlinarith

theorem le_divideToEven (num den : Nat) : num / den ≤ divideToEven num den := by
  rw [divideToEven]
  split <;> omega

theorem divideToEven_le (num den : Nat) : divideToEven num den ≤ num / den + 1 := by
  rw [divideToEven]
  split <;> omega

structure Rounded (num den significand shift : Nat) : Prop where
  close : 2 * (den * 2 ^ shift) * significand ≤ 2 * (num * unitsPerOne) + den * 2 ^ shift
  least : num * unitsPerOne / (den * 2 ^ shift) ≤ significand
  width : significand ≤ 2 * hiddenBit
  scale : shift = 0 ∧ num * unitsPerOne / den < 2 * hiddenBit ∨
    hiddenBit * 2 ^ shift ≤ num * unitsPerOne / den ∧
      num * unitsPerOne / den < 2 * hiddenBit * 2 ^ shift

theorem exists_rounded (negative : Bool) (num : Nat) {den : Nat} (hden : 0 < den) :
    ∃ significand shift, Rounded num den significand shift ∧
      (ofRatio negative num den).magnitude =
        min (significand + shift * hiddenBit) infinityBits := by
  have hscale : ∃ shift, shift = (if num * unitsPerOne / den < 2 * hiddenBit then 0
      else (num * unitsPerOne / den).log2 - 52) ∧
      (shift = 0 ∧ num * unitsPerOne / den < 2 * hiddenBit ∨
        hiddenBit * 2 ^ shift ≤ num * unitsPerOne / den ∧
          num * unitsPerOne / den < 2 * hiddenBit * 2 ^ shift) := by
    refine ⟨_, rfl, ?_⟩
    generalize num * unitsPerOne / den = whole
    split
    · rename_i hsmall
      exact Or.inl ⟨rfl, hsmall⟩
    · rename_i hlarge
      have hne : whole ≠ 0 := by
        rintro rfl
        exact hlarge (by decide)
      have hlog : 53 ≤ whole.log2 := (Nat.le_log2 hne).mpr (Nat.le_of_not_lt hlarge)
      have hbit : hiddenBit = 2 ^ 52 := rfl
      refine Or.inr ⟨?_, ?_⟩
      · rw [hbit, ← Nat.pow_add, Nat.add_sub_cancel' (by omega)]
        exact Nat.log2_self_le hne
      · rw [hbit, Nat.mul_assoc, ← Nat.pow_add, Nat.add_sub_cancel' (by omega), ← Nat.pow_succ']
        exact Nat.lt_log2_self
  obtain ⟨shift, hshift, hscale⟩ := hscale
  have hpow : 0 < 2 ^ shift := Nat.two_pow_pos shift
  refine ⟨divideToEven (num * unitsPerOne) (den * 2 ^ shift), shift, ⟨?_, ?_, ?_, hscale⟩, ?_⟩
  · exact divideToEven_close _ (Nat.mul_pos hden hpow)
  · exact le_divideToEven _ _
  · have hwhole : num * unitsPerOne / den / 2 ^ shift < 2 * hiddenBit := by
      rcases hscale with ⟨rfl, hsmall⟩ | ⟨-, hhigh⟩
      · rwa [Nat.pow_zero, Nat.div_one]
      · exact (Nat.div_lt_iff_lt_mul hpow).mpr hhigh
    have hle := divideToEven_le (num * unitsPerOne) (den * 2 ^ shift)
    rw [← Nat.div_div_eq_div_mul] at hle
    omega
  · simp only [hshift, ofRatio, magnitude_ofFields, Nat.pow_eq]

/-! ## The limit of finite numbers -/

@[irreducible] def topExponent : Nat := 2044

theorem topExponent_eq : topExponent = 2044 := by rw [topExponent]

/-- What is rounded to infinity, in units: all from half a step above the largest number. -/
def overflow : Nat := 2 ^ topExponent * (4 * hiddenBit - 1)

theorem shift_lt {shift whole : Nat} (hlow : hiddenBit * 2 ^ shift ≤ whole)
    (h : whole < overflow) : shift < topExponent + 2 := by
  have hpow : hiddenBit * 2 ^ shift < hiddenBit * 2 ^ (topExponent + 2) := by
    calc hiddenBit * 2 ^ shift < overflow := Nat.lt_of_le_of_lt hlow h
      _ ≤ 2 ^ topExponent * (4 * hiddenBit) := Nat.mul_le_mul_left _ (Nat.sub_le _ _)
      _ = hiddenBit * 2 ^ (topExponent + 2) := by rw [pow_add]; ring
  exact (Nat.pow_lt_pow_iff_right (by decide)).mp (Nat.lt_of_mul_lt_mul_left hpow)

theorem ofRatio_isFinite (negative : Bool) {num den : Nat} (hden : 0 < den)
    (h : num * unitsPerOne < overflow * den) : (ofRatio negative num den).isFinite = true := by
  obtain ⟨significand, shift, hround, hmagnitude⟩ := exists_rounded negative num hden
  have hwidth := hround.width
  have htop := topExponent_eq
  rw [isFinite_iff, hmagnitude, infinityBits_eq]
  refine Nat.lt_of_le_of_lt (Nat.min_le_left _ _) ?_
  rcases hround.scale with ⟨rfl, -⟩ | ⟨hlow, -⟩
  · rw [hiddenBit_eq] at hwidth ⊢
    omega
  · have hshift := shift_lt hlow ((Nat.div_lt_iff_lt_mul hden).mpr h)
    rcases Nat.lt_or_eq_of_le (Nat.le_of_lt_succ hshift) with hlt | rfl
    · rw [hiddenBit_eq] at hwidth ⊢
      omega
    · have hclose := hround.close
      rw [Nat.pow_succ'] at hclose
      rw [overflow, hiddenBit_eq] at h
      have hpos : 0 < 2 ^ topExponent * den := Nat.mul_pos (Nat.two_pow_pos _) hden
      generalize 2 ^ topExponent = p at hclose h hpos
      have hbound : significand * (p * den) < 9007199254740992 * (p * den) := by nlinarith
      have hlt := Nat.lt_of_mul_lt_mul_right hbound
      simp only [htop, hiddenBit_eq]
      omega

theorem units_lt_overflow {x : Binary64} (hx : x.isFinite = true) : x.units < overflow := by
  rw [isFinite_iff, infinityBits_eq] at hx
  have hexponent : x.magnitude / hiddenBit < 2047 := (Nat.div_lt_iff_lt_mul (by decide)).mpr hx
  have hfraction : x.magnitude % hiddenBit < hiddenBit := Nat.mod_lt _ (by decide)
  have hpow : 2 ^ (x.magnitude / hiddenBit - 1) ≤ 2 ^ (topExponent + 1) :=
    Nat.pow_le_pow_right (by decide) (by have htop := topExponent_eq; omega)
  have hpos : 0 < 2 ^ topExponent := Nat.two_pow_pos _
  rw [Nat.pow_succ'] at hpow
  rw [units, overflow, Nat.pow_eq]
  rw [hiddenBit_eq] at *
  generalize 2 ^ topExponent = p at *
  generalize x.magnitude / 4503599627370496 = e at *
  generalize x.magnitude % 4503599627370496 = f at *
  split
  · omega
  · generalize 2 ^ (e - 1) = q at *
    nlinarith

theorem div_isFinite {x y : Binary64} (hx : x.isFinite = true) (hy : unitsPerOne ≤ y.units) :
    (x.div y).isFinite = true := by
  have hpos := unitsPerOne_pos
  have hlt := units_lt_overflow hx
  refine ofRatio_isFinite _ (Nat.lt_of_lt_of_le hpos hy) ?_
  calc x.units * unitsPerOne < overflow * unitsPerOne := (Nat.mul_lt_mul_right hpos).mpr hlt
    _ ≤ overflow * y.units := Nat.mul_le_mul_left _ hy

theorem mul_isFinite {x y : Binary64} (h : x.units * y.units < overflow * unitsPerOne) :
    (x.mul y).isFinite = true := by
  have hpos := unitsPerOne_pos
  refine ofRatio_isFinite _ (Nat.mul_pos hpos hpos) ?_
  rw [← Nat.mul_assoc]
  exact (Nat.mul_lt_mul_right hpos).mpr h

/-! ## The error of rounding -/

section Normal

variable {negative : Bool} {num den : Nat} (hden : 0 < den)
  (hnormal : unitsPerOne ≤ num * unitsPerOne / den)
  (hfinite : (ofRatio negative num den).isFinite = true)

include hden hnormal hfinite

theorem exists_units : ∃ significand shift, Rounded num den significand shift ∧
    hiddenBit ≤ significand ∧ hiddenBit * 2 ^ shift ≤ num * unitsPerOne / den ∧
    unitsPerOne ≤ hiddenBit * 2 ^ shift ∧
    (ofRatio negative num den).units = significand * 2 ^ shift := by
  obtain ⟨significand, shift, hround, hmagnitude⟩ := exists_rounded negative num hden
  have hbit : hiddenBit = 2 ^ 52 := rfl
  have hunit := unitExponent_eq
  rcases hround.scale with ⟨rfl, hsmall⟩ | ⟨hlow, hhigh⟩
  · have hone : 2 * hiddenBit ≤ unitsPerOne := by
      rw [hbit, unitsPerOne_eq, ← Nat.pow_succ']
      exact Nat.pow_le_pow_right (by decide) (by omega)
    omega
  · have hshift : unitExponent < 53 + shift := by
      have hlt := Nat.lt_of_le_of_lt hnormal hhigh
      rw [hbit, unitsPerOne_eq, ← Nat.pow_succ', ← Nat.pow_add] at hlt
      exact (Nat.pow_lt_pow_iff_right (by decide)).mp hlt
    have hleast := hround.least
    rw [← Nat.div_div_eq_div_mul] at hleast
    have hsignificand : hiddenBit ≤ significand :=
      Nat.le_trans ((Nat.le_div_iff_mul_le (Nat.two_pow_pos shift)).mpr hlow) hleast
    rw [isFinite_iff, hmagnitude] at hfinite
    rw [Nat.min_eq_left (by omega)] at hmagnitude
    refine ⟨significand, shift, hround, hsignificand, hlow, ?_, ?_⟩
    · rw [hbit, unitsPerOne_eq, ← Nat.pow_add]
      exact Nat.pow_le_pow_right (by decide) (by omega)
    · exact units_of_magnitude hmagnitude hsignificand hround.width

theorem unitsPerOne_le_units : unitsPerOne ≤ (ofRatio negative num den).units := by
  obtain ⟨significand, shift, -, hlow, -, hone, hunits⟩ := exists_units hden hnormal hfinite
  rw [hunits]
  exact Nat.le_trans hone (Nat.mul_le_mul_right _ hlow)

/-- Rounding adds at most one part in `2 ^ 53`. -/
theorem units_le : (ofRatio negative num den).units * den * (2 * hiddenBit) ≤
    num * unitsPerOne * (2 * hiddenBit + 1) := by
  obtain ⟨significand, shift, hround, -, hlow, -, hunits⟩ := exists_units hden hnormal hfinite
  have hwhole : hiddenBit * 2 ^ shift * den ≤ num * unitsPerOne :=
    (Nat.le_div_iff_mul_le hden).mp hlow
  have hclose := hround.close
  rw [hunits]
  generalize 2 ^ shift = p at *
  generalize num * unitsPerOne = n at *
  generalize hiddenBit = b at *
  nlinarith

end Normal

/-! ## Decimals -/

/-- A product of two rounded numbers is finite if the numbers are some steps below the limit. -/
theorem mul_ofRatio_isFinite {m n : Nat} (hm : 0 < m) (hn : 0 < n)
    (hfinite : (ofRatio false m 1).isFinite = true)
    (hfinite' : (ofRatio false n 1).isFinite = true)
    (h : m * n * unitsPerOne < (2 * hiddenBit - 3) * 2 ^ (topExponent + 1)) :
    ((ofRatio false m 1).mul (ofRatio false n 1)).isFinite = true := by
  have hone {k : Nat} (hk : 0 < k) : unitsPerOne ≤ k * unitsPerOne / 1 := by
    rw [Nat.div_one]
    exact Nat.le_mul_of_pos_left _ hk
  have hunits := units_le (Nat.zero_lt_one) (hone hm) hfinite
  have hunits' := units_le (Nat.zero_lt_one) (hone hn) hfinite'
  apply mul_isFinite
  have hpos := unitsPerOne_pos
  rw [Nat.mul_one] at hunits hunits'
  rw [Nat.pow_succ'] at h
  rw [overflow]
  generalize (ofRatio false m 1).units = x at *
  generalize (ofRatio false n 1).units = y at *
  generalize 2 ^ topExponent = p at *
  generalize unitsPerOne = u at *
  have hbit := hiddenBit_eq
  have hcancel : x * y * (2 * hiddenBit * (2 * hiddenBit)) <
      p * (4 * hiddenBit - 1) * u * (2 * hiddenBit * (2 * hiddenBit)) := by
    calc x * y * (2 * hiddenBit * (2 * hiddenBit))
        = x * (2 * hiddenBit) * (y * (2 * hiddenBit)) := by ring
      _ ≤ m * u * (2 * hiddenBit + 1) * (n * u * (2 * hiddenBit + 1)) :=
          Nat.mul_le_mul hunits hunits'
      _ = m * n * u * (u * ((2 * hiddenBit + 1) * (2 * hiddenBit + 1))) := by ring
      _ < (2 * hiddenBit - 3) * (2 * p) * (u * ((2 * hiddenBit + 1) * (2 * hiddenBit + 1))) :=
          (Nat.mul_lt_mul_right (Nat.mul_pos hpos (Nat.mul_pos (Nat.succ_pos _) (Nat.succ_pos _)))).mpr h
      _ = 2 * ((2 * hiddenBit - 3) * ((2 * hiddenBit + 1) * (2 * hiddenBit + 1))) * (p * u) := by
          ring
      _ ≤ (4 * hiddenBit - 1) * (2 * hiddenBit * (2 * hiddenBit)) * (p * u) :=
          Nat.mul_le_mul_right _ (by rw [hiddenBit_eq]; decide)
      _ = p * (4 * hiddenBit - 1) * u * (2 * hiddenBit * (2 * hiddenBit)) := by ring
  exact Nat.lt_of_mul_lt_mul_right hcancel

theorem top_lt_shift {shift : Nat}
    (h : (2 * hiddenBit - 3) * 2 ^ (topExponent + 1) < 2 * hiddenBit * 2 ^ shift) :
    topExponent < shift := by
  apply Nat.lt_of_not_le
  intro hle
  have hpow : 2 ^ shift ≤ 2 ^ topExponent := Nat.pow_le_pow_right (by decide) hle
  have hpos : 0 < 2 ^ topExponent := Nat.two_pow_pos _
  rw [Nat.pow_succ', hiddenBit_eq] at h
  generalize 2 ^ shift = q at h hpow
  generalize 2 ^ topExponent = p at h hpow hpos
  omega

theorem le_magnitude {negative : Bool} {num den : Nat} (hden : 0 < den)
    (h : (2 * hiddenBit - 3) * 2 ^ (topExponent + 1) * den ≤ num * unitsPerOne) :
    infinityBits - 3 ≤ (ofRatio negative num den).magnitude := by
  obtain ⟨significand, shift, hround, hmagnitude⟩ := exists_rounded negative num hden
  have hwhole : (2 * hiddenBit - 3) * 2 ^ (topExponent + 1) ≤ num * unitsPerOne / den :=
    (Nat.le_div_iff_mul_le hden).mpr h
  have hleast := hround.least
  have hscale := hround.scale
  rw [← Nat.div_div_eq_div_mul] at hleast
  rw [hmagnitude]
  generalize num * unitsPerOne / den = whole at hwhole hleast hscale
  have hcount : infinityBits - 3 ≤ significand + shift * hiddenBit := by
    rw [infinityBits_eq]
    rcases hscale with ⟨-, hsmall⟩ | ⟨hlow, hhigh⟩
    · have hpow : 1 * (2 * hiddenBit - 3) ≤ 2 ^ topExponent * (2 * hiddenBit - 3) :=
        Nat.mul_le_mul_right _ (Nat.two_pow_pos _)
      rw [Nat.pow_succ', Nat.mul_left_comm, Nat.mul_comm (2 * hiddenBit - 3)] at hwhole
      have hbit := hiddenBit_eq
      omega
    · have hshift : topExponent < shift := top_lt_shift (Nat.lt_of_le_of_lt hwhole hhigh)
      rcases Nat.lt_or_eq_of_le hshift with hlt | hlast
      · have hsignificand : hiddenBit ≤ significand :=
          Nat.le_trans ((Nat.le_div_iff_mul_le (Nat.two_pow_pos shift)).mpr hlow) hleast
        have hcarry : 2046 * hiddenBit ≤ shift * hiddenBit :=
          Nat.mul_le_mul_right _ (by rw [topExponent_eq] at hlt; omega)
        omega
      · have hsignificand : 2 * hiddenBit - 3 ≤ significand := by
          rw [← hlast] at hleast
          exact Nat.le_trans ((Nat.le_div_iff_mul_le (Nat.two_pow_pos _)).mpr hwhole) hleast
        have hcarry : 2045 * hiddenBit ≤ shift * hiddenBit :=
          Nat.mul_le_mul_right _ (by rw [topExponent_eq] at hlast; omega)
        omega
  exact Nat.le_min.mpr ⟨hcount, Nat.sub_le _ _⟩

end Rebuild.Binary64
