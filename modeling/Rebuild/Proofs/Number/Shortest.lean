import Rebuild.Number.Shortest
import Rebuild.Proofs.Number.Rounding

/-!
# Decimals that spell a number

The shortest decimal of a number reads back as the number, has at most
seventeen digits and is of the number's size.
-/

set_option autoImplicit false

namespace Rebuild.Decimal

open Binary64

variable {d : Decimal} {x : Binary64}

def place (d : Decimal) : Int := (Nat.toDigits 10 d.digits).length - 1 + d.exponent

def IsRatio (d : Decimal) (num den : Nat) : Prop :=
  num * 10 ^ (-d.exponent).toNat = d.digits * 10 ^ d.exponent.toNat * den

/-- The decimal reads back as a number and can be written in a word. -/
structure Spells (d : Decimal) (x : Binary64) : Prop where
  positive : 0 < d.digits
  short : d.digits ≤ 10 ^ 17
  place : d.place < 310
  ratio : ∃ num den, 0 < den ∧ .ofRatio false num den = x ∧ d.IsRatio num den

theorem magnitude_zero (negative : Bool) : (zero negative).magnitude = 0 := by
  rw [zero, magnitude_ofFields, Nat.zero_min]

theorem infinity_isFinite (negative : Bool) : (infinity negative).isFinite = false := by
  rw [isFinite, infinity, magnitude_ofFields, Nat.min_self]
  exact decide_eq_false (Nat.lt_irrefl _)

theorem spells_of_toBinary64 (hd : d.toBinary64 = x) (hx : x.isFinite = true)
    (hpos : 0 < x.magnitude) (hshort : d.digits ≤ 10 ^ 17) : d.Spells x := by
  rw [toBinary64, ofDecimal] at hd
  split at hd
  · rw [← hd, magnitude_zero] at hpos
    exact absurd hpos (Nat.lt_irrefl 0)
  · rename_i hdigits
    split at hd
    · rw [← hd, infinity_isFinite] at hx
      cases hx
    · rename_i hplace
      split at hd
      · rw [← hd, magnitude_zero] at hpos
        exact absurd hpos (Nat.lt_irrefl 0)
      · refine ⟨Nat.pos_of_ne_zero hdigits, hshort, by rw [place]; omega, ?_⟩
        split at hd
        · rename_i hexponent
          refine ⟨_, 1, Nat.one_pos, hd, ?_⟩
          rw [IsRatio, Int.toNat_of_nonpos (by omega : -d.exponent ≤ 0), Nat.pow_eq]
          ring
        · refine ⟨_, _, Nat.pow_pos (by decide), hd, ?_⟩
          rw [IsRatio, Int.toNat_of_nonpos (by omega : d.exponent ≤ 0)]
          ring

/-! ## The grid -/

theorem exists_leadingPlace (units : Nat) : ∃ n : Nat, leadingPlace units =
    ((Nat.toDigits 10 (units * 10 ^ n / unitsPerOne)).length : Int) - (n + 1) :=
  by
  rw [leadingPlace, show (401 : Int) = (400 : Nat) + 1 from rfl]
  generalize 400 = n
  exact ⟨n, by rw [Nat.pow_eq]⟩

theorem units_lt_grid (units k : Nat) : ∀ exponent, exponent = leadingPlace units - k →
    units * 10 ^ (-exponent).toNat < unitsPerOne * 10 ^ exponent.toNat * 10 ^ (k + 1) := by
  intro exponent hexponent
  obtain ⟨n, hplace⟩ := exists_leadingPlace units
  have hlength := (Nat.length_toDigits_le_iff (b := 10) (by decide) Nat.length_toDigits_pos).mp
    (Nat.le_refl (Nat.toDigits 10 (units * 10 ^ n / unitsPerOne)).length)
  generalize (Nat.toDigits 10 (units * 10 ^ n / unitsPerOne)).length = l at hplace hlength
  rw [Nat.div_lt_iff_lt_mul unitsPerOne_pos] at hlength
  rw [hplace] at hexponent
  apply Nat.lt_of_mul_lt_mul_right (a := 10 ^ n)
  rcases Int.le_total exponent 0 with hneg | hpos
  · have hsum : l + (-exponent).toNat = n + (k + 1) := by omega
    rw [Int.toNat_of_nonpos hneg]
    calc units * 10 ^ (-exponent).toNat * 10 ^ n
        = units * 10 ^ n * 10 ^ (-exponent).toNat := Nat.mul_right_comm ..
      _ < 10 ^ l * unitsPerOne * 10 ^ (-exponent).toNat :=
          (Nat.mul_lt_mul_right (Nat.pow_pos (by decide))).mpr hlength
      _ = 10 ^ (l + (-exponent).toNat) * unitsPerOne := by rw [pow_add]; ring
      _ = unitsPerOne * 10 ^ 0 * 10 ^ (k + 1) * 10 ^ n := by rw [hsum, pow_add]; ring
  · have hsum : l = exponent.toNat + (k + 1) + n := by omega
    rw [Int.toNat_of_nonpos (by omega : -exponent ≤ 0)]
    calc units * 10 ^ 0 * 10 ^ n = units * 10 ^ n := by ring
      _ < 10 ^ l * unitsPerOne := hlength
      _ = unitsPerOne * 10 ^ exponent.toNat * 10 ^ (k + 1) * 10 ^ n := by
          rw [hsum, pow_add, pow_add]; ring

theorem nearestOnGrid?_eq_some {exponent : Int} (h : nearestOnGrid? x exponent = some d) :
    d.toBinary64 = x ∧ d.digits ≤ x.units * 10 ^ (-exponent).toNat /
      (unitsPerOne * 10 ^ exponent.toNat) + 1 := by
  rw [nearestOnGrid?] at h
  simp only [Nat.pow_eq] at h
  split at h
  · rename_i hbelow
    split at h
    · rename_i habove
      cases h
      exact ⟨habove.1, Nat.le_refl _⟩
    · cases h
      exact ⟨hbelow, Nat.le_succ _⟩
  · split at h
    · rename_i habove
      cases h
      exact ⟨habove, Nat.le_refl _⟩
    · cases h

/-! ## Trailing zeros -/

theorem length_toDigits_tenth {n : Nat} (hn : n ≠ 0) (hten : n % 10 = 0) :
    (Nat.toDigits 10 n).length = (Nat.toDigits 10 (n / 10)).length + 1 := by
  rw [Nat.toDigits_of_base_le (by decide) (by omega), List.length_append, List.length_singleton]

theorem Spells.tenth (h : d.Spells x) (hten : d.digits % 10 = 0) :
    Spells ⟨d.digits / 10, d.exponent + 1⟩ x := by
  obtain ⟨hpos, hshort, hplace, num, den, hden, hx, hratio⟩ := h
  have hlength := length_toDigits_tenth (Nat.ne_of_gt hpos) hten
  refine ⟨by dsimp only; omega, by dsimp only; omega, ?_, num, den, hden, hx, ?_⟩
  · rw [Decimal.place] at hplace ⊢
    dsimp only
    omega
  · rw [IsRatio] at hratio ⊢
    obtain ⟨n, hn⟩ : ∃ n, d.digits = n * 10 := ⟨d.digits / 10, by omega⟩
    dsimp only
    rw [hn] at hratio ⊢
    rw [Nat.mul_div_cancel _ (by decide)]
    rcases Int.lt_or_le d.exponent 0 with hneg | hnonneg
    · rw [show (-d.exponent).toNat = (-(d.exponent + 1)).toNat + 1 by omega, Nat.pow_succ,
        Int.toNat_of_nonpos (Int.le_of_lt hneg)] at hratio
      rw [Int.toNat_of_nonpos (by omega : d.exponent + 1 ≤ 0)]
      apply Nat.eq_of_mul_eq_mul_right (show 0 < 10 by decide)
      rw [Nat.mul_assoc, hratio]
      ring
    · rw [show (d.exponent + 1).toNat = d.exponent.toNat + 1 by omega, Nat.pow_succ,
        Int.toNat_of_nonpos (by omega : -(d.exponent + 1) ≤ 0)]
      rw [Int.toNat_of_nonpos (by omega : -d.exponent ≤ 0)] at hratio
      rw [hratio]
      ring

theorem Spells.dropZeros (h : d.Spells x) (places : Nat) : (dropZeros places d).Spells x := by
  induction places generalizing d with
  | zero => exact h
  | succ places ih =>
    rw [Decimal.dropZeros]
    split
    · rename_i hten
      exact ih (h.tenth hten.2)
    · exact h

theorem spells_of_shortest? {magnitude : Nat} (hpos : 0 < magnitude) (hlt : magnitude < infinityBits)
    (h : shortest? (ofFields false magnitude) = some d) : d.Spells (ofFields false magnitude) := by
  have hmagnitude : (ofFields false magnitude).magnitude = magnitude := by
    rw [magnitude_ofFields, Nat.min_eq_left (Nat.le_of_lt hlt)]
  rw [← hmagnitude] at hpos hlt
  generalize ofFields false magnitude = x at h hpos hlt ⊢
  obtain ⟨e, he, rfl⟩ := Option.map_eq_some_iff.mp h
  obtain ⟨k, hk, hgrid⟩ := List.exists_of_findSome?_eq_some he
  obtain ⟨hvalue, hdigits⟩ := nearestOnGrid?_eq_some hgrid
  have hdiv := Nat.div_lt_of_lt_mul (units_lt_grid x.units k _ rfl)
  have hpow : 10 ^ (k + 1) ≤ 10 ^ 17 := Nat.pow_le_pow_right (by decide) (List.mem_range.mp hk)
  exact (spells_of_toBinary64 hvalue ((isFinite_iff x).mpr hlt) hpos (by omega)).dropZeros 20

end Rebuild.Decimal
