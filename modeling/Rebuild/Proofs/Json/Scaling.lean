import Rebuild.Json.Numeral
import Rebuild.Proofs.Number.Shortest

/-!
# Scaling

A number that is read is scaled by a power of ten, with the error of rounding
twice. Downward this always comes to a number, and upward it does for decimals
that spell one: at the limit of finite numbers only the three largest could
overflow, and they do not.
-/

set_option autoImplicit false

namespace Rebuild.Json.Number

open Binary64 Decimal

variable {x y : Binary64} {d : Decimal}

/-! ## Powers of ten -/

theorem ofDecimal_one {exponent : Int} (hnonneg : 0 ≤ exponent) (hle : exponent ≤ 308) :
    Binary64.ofDecimal false 1 exponent = ofRatio false (10 ^ exponent.toNat) 1 := by
  have hlength : (Nat.toDigits 10 1).length = 1 := rfl
  simp only [Binary64.ofDecimal, hlength]
  rw [if_neg (by decide), if_neg (by omega), if_neg (by omega), if_pos hnonneg, Nat.one_mul,
    Nat.pow_eq]

theorem power_lt_overflow {n : Nat} (h : n ≤ 308) : 10 ^ n * unitsPerOne < overflow * 1 := by
  have hlimit : Nat.pow 10 308 * unitsPerOne < overflow * 1 := by decide +kernel
  generalize 308 = m at h hlimit
  exact Nat.lt_of_le_of_lt (Nat.mul_le_mul_right _ (Nat.pow_le_pow_right (by decide) h)) hlimit

theorem le_of_power_lt {n : Nat}
    (h : 10 ^ n * unitsPerOne < (2 * hiddenBit - 3) * 2 ^ (topExponent + 1)) : n ≤ 308 := by
  have hlimit : (2 * hiddenBit - 3) * 2 ^ (topExponent + 1) ≤ Nat.pow 10 309 * unitsPerOne := by
    decide +kernel
  apply Nat.le_of_not_lt
  intro hlt
  have hle : 309 ≤ n := hlt
  generalize 309 = m at hlimit hle
  have hpower : 10 ^ m * unitsPerOne ≤ 10 ^ n * unitsPerOne :=
    Nat.mul_le_mul_right _ (Nat.pow_le_pow_right (by decide) hle)
  exact Nat.lt_irrefl _ (Nat.lt_of_lt_of_le h (Nat.le_trans hlimit hpower))

theorem power_isFinite {n : Nat} (h : n ≤ 308) : (ofRatio false (10 ^ n) 1).isFinite = true :=
  ofRatio_isFinite false Nat.one_pos (power_lt_overflow h)

theorem unitsPerOne_le_power {n : Nat} (h : n ≤ 308) :
    unitsPerOne ≤ (ofRatio false (10 ^ n) 1).units := by
  refine unitsPerOne_le_units Nat.one_pos ?_ (power_isFinite h)
  rw [Nat.div_one]
  exact Nat.le_mul_of_pos_left _ (Nat.pow_pos (by decide))

theorem ofNat_isFinite {n : Nat} (h : n ≤ wordLimit) : (Binary64.ofNat n).isFinite = true := by
  have hlimit : wordLimit * unitsPerOne < overflow * 1 := by decide +kernel
  exact ofRatio_isFinite false Nat.one_pos
    (Nat.lt_of_le_of_lt (Nat.mul_le_mul_right _ h) hlimit)

/-! ## Steps -/

theorem div_power_isFinite (hx : x.isFinite = true) {exponent : Int} (hnonneg : 0 ≤ exponent)
    (hle : exponent ≤ 308) : (x.div (.ofDecimal false 1 exponent)).isFinite = true := by
  rw [ofDecimal_one hnonneg hle]
  exact div_isFinite hx (unitsPerOne_le_power (by omega))

theorem scale_isFinite {steps : Nat} {exponent : Int} (hx : x.isFinite = true)
    (h : scale steps x exponent = some y) : y.isFinite = true := by
  induction steps generalizing x exponent with
  | zero =>
    cases h
    exact hx
  | succ steps ih =>
    rw [scale] at h
    split at h
    · split at h
      · split at h
        · cases h
          exact hx
        · cases h
      · dsimp only at h
        split at h
        · cases h
          assumption
        · cases h
    · split at h
      · cases h
        exact div_power_isFinite hx (by omega) (by omega)
      · split at h
        · cases h
          exact hx
        · exact ih (div_power_isFinite hx (by decide) (by decide)) h

theorem exists_scale_down (steps : Nat) (x : Binary64) {exponent : Int} (h : exponent < 0) :
    ∃ y, scale steps x exponent = some y := by
  induction steps generalizing x exponent with
  | zero => exact ⟨x, rfl⟩
  | succ steps ih =>
    rw [scale, if_neg (by omega)]
    split
    · exact ⟨_, rfl⟩
    · split
      · exact ⟨_, rfl⟩
      · exact ih _ (by omega)

theorem exists_scale_up {steps digits : Nat} {exponent : Int} (hnonneg : 0 ≤ exponent)
    (hpos : 0 < digits) (hdigits : digits ≤ wordLimit)
    (h : digits * 10 ^ exponent.toNat * unitsPerOne < (2 * hiddenBit - 3) * 2 ^ (topExponent + 1)) :
    ∃ y, scale (steps + 1) (.ofNat digits) exponent = some y := by
  have hexponent : exponent ≤ 308 := by
    have hpower : 10 ^ exponent.toNat ≤ digits * 10 ^ exponent.toNat := Nat.le_mul_of_pos_left _ hpos
    have hle := le_of_power_lt (Nat.lt_of_le_of_lt (Nat.mul_le_mul_right _ hpower) h)
    omega
  have hfinite : ((Binary64.ofNat digits).mul (.ofDecimal false 1 exponent)).isFinite = true := by
    rw [ofDecimal_one hnonneg hexponent]
    exact mul_ofRatio_isFinite hpos (Nat.pow_pos (by decide)) (ofNat_isFinite hdigits)
      (power_isFinite (by omega)) h
  rw [scale, if_pos hnonneg, if_neg (by omega)]
  exact ⟨_, if_pos hfinite⟩

/-- The largest numbers, which are rounded towards the limit and scaled up. -/
theorem scale_greatest : ∀ k ∈ [1, 2, 3],
    ((shortest? (.ofFields false (infinityBits - k))).bind fun d =>
      scale 4 (.ofNat d.digits) d.exponent).isSome = true := by
  decide +kernel

theorem exists_scale {magnitude : Nat} (hpos : 0 < magnitude) (hlt : magnitude < infinityBits)
    (h : shortest? (.ofFields false magnitude) = some d) :
    ∃ y, scale 4 (.ofNat d.digits) d.exponent = some y := by
  have hmagnitude : (ofFields false magnitude).magnitude = magnitude := by
    rw [magnitude_ofFields, Nat.min_eq_left (Nat.le_of_lt hlt)]
  have hspells := spells_of_shortest? hpos hlt h
  rcases Int.lt_or_le d.exponent 0 with hneg | hnonneg
  · exact exists_scale_down 4 _ hneg
  · rcases Nat.lt_or_ge (d.digits * 10 ^ d.exponent.toNat * unitsPerOne)
      ((2 * hiddenBit - 3) * 2 ^ (topExponent + 1)) with hbelow | habove
    · have hdigits : d.digits ≤ wordLimit := Nat.le_trans hspells.short (by decide)
      exact exists_scale_up hnonneg hspells.positive hdigits hbelow
    · obtain ⟨num, den, hden, hratio, hexact⟩ := hspells.ratio
      rw [IsRatio, Int.toNat_of_nonpos (by omega : -d.exponent ≤ 0), Nat.pow_zero,
        Nat.mul_one] at hexact
      have hlarge : infinityBits - 3 ≤ magnitude := by
        rw [← hmagnitude, ← hratio]
        apply le_magnitude hden
        rw [hexact]
        calc (2 * hiddenBit - 3) * 2 ^ (topExponent + 1) * den
            ≤ d.digits * 10 ^ d.exponent.toNat * unitsPerOne * den :=
              Nat.mul_le_mul_right den habove
          _ = d.digits * 10 ^ d.exponent.toNat * den * unitsPerOne := Nat.mul_right_comm ..
      have hlimit := infinityBits_eq
      rw [hiddenBit_eq] at hlimit
      have hgreatest := scale_greatest (infinityBits - magnitude)
        (by simp only [List.mem_cons, List.not_mem_nil, or_false]; omega)
      rw [Nat.sub_sub_self (Nat.le_of_lt hlt), h, Option.bind_some] at hgreatest
      exact Option.isSome_iff_exists.mp hgreatest

end Rebuild.Json.Number
