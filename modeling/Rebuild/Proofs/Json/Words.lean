import Rebuild.Json.Writer
import Rebuild.Proofs.Json.Grammar
import Rebuild.Proofs.Json.Scaling

/-!
# Numbers as words

The words that numbers are written with spell numbers. An integer comes back
as it was. A floating-point number comes back as one, though rounding twice
may miss the number that was written.
-/

set_option autoImplicit false

namespace Rebuild.Json.Number

variable {negative : Bool} {whole fraction : List Char} {exponent : Int} {n : Nat}

/-! ## Digits -/

theorem digits_toDigits (n : Nat) : Digits (Nat.toDigits 10 n) :=
  fun _ hc => Nat.isDigit_of_mem_toDigits (by decide) (by decide) hc

theorem value_toDigits (n : Nat) : value (Nat.toDigits 10 n) = n := Nat.ofDigitChars_ten_toDigits

theorem value_append (a b : List Char) : value (a ++ b) = 10 ^ b.length * value a + value b :=
  (Nat.ofDigitChars_append 0).trans Nat.ofDigitChars_eq_ofDigitChars_zero

theorem value_zeros (n : Nat) : value (List.replicate n '0') = 0 :=
  Nat.ofDigitChars_replicate_zero.trans (Nat.mul_zero _)

theorem value_zero : value ['0'] = 0 := rfl

theorem wordLimit_eq : wordLimit = 18446744073709551615 := rfl

theorem toDigits_head? (hn : 0 < n) : (Nat.toDigits 10 n).head? ≠ some '0' := by
  induction n using Nat.strongRecOn with
  | ind n ih =>
    rcases Nat.lt_or_ge n 10 with hlt | hge
    · have hdigit : ∀ n < 10, 0 < n → n.digitChar ≠ '0' := by decide
      rw [Nat.toDigits_of_lt_base hlt, List.head?_cons]
      simpa using hdigit n hlt hn
    · have htenth := ih (n / 10) (by omega) (by omega)
      obtain ⟨c, cs, hcs⟩ := List.exists_cons_of_ne_nil (Nat.toDigits_ne_nil (n := n / 10) (b := 10))
      rw [hcs] at htenth
      rw [Nat.toDigits_of_base_le (by decide) hge, hcs]
      exact htenth

theorem digits_zeros (n : Nat) : Digits (List.replicate n '0') := by
  intro c hc
  rw [(List.mem_replicate.mp hc).2]
  rfl

theorem whole_toDigits (n : Nat) : Whole (Nat.toDigits 10 n) := by
  refine ⟨digits_toDigits n, Nat.toDigits_ne_nil, ?_⟩
  rintro ⟨hhead, hlength⟩
  rcases Nat.eq_zero_or_pos n with rfl | hn
  · exact absurd hlength (by decide)
  · exact toDigits_head? hn hhead

theorem whole_zero : Whole ['0'] := whole_toDigits 0

theorem whole_of_head? {cs : List Char} (hcs : Digits cs) {c : Char} (hhead : cs.head? = some c)
    (hc : c ≠ '0') : Whole cs := by
  refine ⟨hcs, ?_, ?_⟩
  · rintro rfl
    cases hhead
  · rintro ⟨hzero, -⟩
    exact hc (Option.some.inj (hhead.symm.trans hzero))

/-! ## Significands -/

theorem significant_eq {limit : Nat} {cs : List Char}
    (h : Nat.ofDigitChars 10 cs n ≤ limit) :
    significant limit n cs = (Nat.ofDigitChars 10 cs n, []) := by
  induction cs generalizing n with
  | nil => rfl
  | cons c cs ih =>
    rw [Nat.ofDigitChars_cons] at h ⊢
    have hstep : 10 * n + digitValue c ≤ limit := by
      refine Nat.le_trans ?_ h
      rw [Nat.ofDigitChars_eq_ofDigitChars_zero]
      exact Nat.le_trans (Nat.le_mul_of_pos_left _ (Nat.pow_pos (by decide))) (Nat.le_add_right _ _)
    rw [significant, if_neg (Nat.not_lt.mpr hstep)]
    exact ih h

theorem float?_eq (h : value (whole ++ fraction) ≤ wordLimit) :
    float? negative whole fraction exponent =
      (ofParts? negative (value (whole ++ fraction)) (exponent - fraction.length)).map .float := by
  have hwhole : value whole ≤ wordLimit := by
    rw [value_append] at h
    exact Nat.le_trans (Nat.le_trans (Nat.le_mul_of_pos_left _ (Nat.pow_pos (by decide)))
      (Nat.le_add_right _ _)) h
  have hall : value (whole ++ fraction) = Nat.ofDigitChars 10 fraction (value whole) :=
    Nat.ofDigitChars_append 0
  rw [hall] at h ⊢
  have hhead : significant wordLimit 0 whole = (value whole, []) := significant_eq hwhole
  have hplaces : ((0 : Nat) : Int) - ((fraction.length - 0 : Nat) : Int) + exponent =
      exponent - fraction.length := by omega
  simp only [float?, hhead, List.isEmpty_nil, if_true, significant_eq h, List.length_nil, hplaces]

theorem exists_float (hshort : value (whole ++ fraction) ≤ wordLimit)
    (hscale : ∃ y, scale 4 (.ofNat (value (whole ++ fraction))) (exponent - fraction.length) =
      some y) : ∃ y, float? negative whole fraction exponent = some (.float y) := by
  obtain ⟨y, hy⟩ := hscale
  rw [float?_eq hshort, ofParts?, hy]
  exact ⟨_, rfl⟩

/-! ## Shapes of words -/

def SpellsFloat (negative : Bool) (cs : List Char) : Prop :=
  ∃ n y, SpellsUnsigned negative cs n ∧ n.toJson? = some (.float y)

theorem spellsFloat_point (h : Whole whole) (hfraction : Digits fraction) (hne : fraction ≠ [])
    (hvalue : ∃ y, float? negative whole fraction 0 = some (.float y)) :
    SpellsFloat negative (whole ++ '.' :: fraction) := by
  obtain ⟨y, hy⟩ := hvalue
  have hspells : SpellsUnsigned negative (whole ++ ('.' :: fraction ++ [])) _ :=
    .parts h (.point hfraction hne) .absent
  rw [List.append_nil] at hspells
  exact ⟨_, y, hspells, (if_neg hne).trans hy⟩

def placePower (place : Int) : Exponent := ⟨place < 0, Nat.toDigits 10 place.natAbs⟩

theorem spellsPower_place (place : Int) :
    SpellsPower ((if place < 0 then '-' else '+') :: Nat.toDigits 10 place.natAbs)
      (placePower place) := by
  rw [placePower]
  split
  · rename_i h
    rw [decide_eq_true h]
    exact .minus (digits_toDigits _) Nat.toDigits_ne_nil
  · rename_i h
    rw [decide_eq_false h]
    exact .plus (digits_toDigits _) Nat.toDigits_ne_nil

/-- An exponent that is written is read, or lies so far below that the number is zero. -/
theorem withExponent?_place {place : Int} (hplace : place ≤ exponentLimit)
    (hvalue : ∃ y, float? negative whole fraction place = some (.float y)) :
    ∃ y, withExponent? negative whole fraction (placePower place) = some (.float y) := by
  simp only [withExponent?, placePower, value_toDigits, decide_eq_true_eq]
  rcases Int.lt_or_le place 0 with hneg | hnonneg
  · split
    · exact ⟨_, if_pos (Or.inl hneg)⟩
    · rwa [show -(place.natAbs : Int) = place by omega]
  · rw [if_neg (by omega), if_neg (Int.not_lt.mpr hnonneg),
      show (place.natAbs : Int) = place by omega]
    exact hvalue

/-! ## Decimals -/

section Decimal

variable {n : Nat} (hpos : 0 < n) (hshort : n ≤ 10 ^ 17)

theorem lt_pow_length (n : Nat) : n < 10 ^ (Nat.toDigits 10 n).length :=
  (Nat.length_toDigits_le_iff (by decide) Nat.length_toDigits_pos).mp (Nat.le_refl _)

include hpos in
theorem exists_lead : ∃ c, (Nat.toDigits 10 n).head? = some c ∧ c ≠ '0' := by
  obtain ⟨c, cs, hcs⟩ := List.exists_cons_of_ne_nil (Nat.toDigits_ne_nil (n := n) (b := 10))
  refine ⟨c, by rw [hcs, List.head?_cons], ?_⟩
  rintro rfl
  exact toDigits_head? hpos (by rw [hcs, List.head?_cons])

include hpos in
theorem whole_append (more : List Char) (hmore : Digits more) :
    Whole (Nat.toDigits 10 n ++ more) := by
  obtain ⟨c, hc, hne⟩ := exists_lead hpos
  refine whole_of_head? ?_ (c := c) (by rw [List.head?_append, hc]; rfl) hne
  intro ch hch
  exact (List.mem_append.mp hch).elim (digits_toDigits _ ch) (hmore ch)

include hpos in
theorem whole_take {k : Nat} (hk : 0 < k) : Whole ((Nat.toDigits 10 n).take k) := by
  obtain ⟨c, hc, hne⟩ := exists_lead hpos
  refine whole_of_head? (fun ch hch => digits_toDigits _ ch (List.mem_of_mem_take hch)) (c := c)
    ?_ hne
  rw [List.head?_take, if_neg (Nat.ne_of_gt hk), hc]

theorem digits_drop (n k : Nat) : Digits ((Nat.toDigits 10 n).drop k) :=
  fun c hc => digits_toDigits n c (List.mem_of_mem_drop hc)

include hshort in
theorem exists_float_cut (negative : Bool) (k : Nat) {exponent : Int}
    (hscale : ∃ y, scale 4 (.ofNat n) (exponent - ((Nat.toDigits 10 n).length - k : Nat)) =
      some y) :
    ∃ y, float? negative ((Nat.toDigits 10 n).take k) ((Nat.toDigits 10 n).drop k) exponent =
      some (.float y) := by
  have hvalue : value ((Nat.toDigits 10 n).take k ++ (Nat.toDigits 10 n).drop k) = n := by
    rw [List.take_append_drop, value_toDigits]
  apply exists_float
  · rw [hvalue]
    exact Nat.le_trans hshort (by decide)
  · rwa [hvalue, List.length_drop]

include hpos in
theorem spellsFloat_filled (negative : Bool) {k : Nat}
    (hk : (Nat.toDigits 10 n).length + k ≤ 16) :
    SpellsFloat negative (Nat.toDigits 10 n ++ List.replicate k '0' ++ ['.', '0']) := by
  have hlt := lt_pow_length n
  refine spellsFloat_point (whole_append hpos _ (digits_zeros k)) whole_zero.digits (by simp) ?_
  apply exists_float
  · rw [value_append, value_append, value_toDigits, value_zeros, value_zero,
      List.length_replicate, List.length_singleton, wordLimit_eq]
    have hpow : 10 ^ k * 10 ^ (Nat.toDigits 10 n).length ≤ 10 ^ 16 := by
      rw [← Nat.pow_add]
      exact Nat.pow_le_pow_right (by decide) (by omega)
    have hbound := Nat.mul_lt_mul_of_pos_left hlt (Nat.pow_pos (n := k) (show 0 < 10 by decide))
    omega
  · exact exists_scale_down 4 _ (by decide)

include hshort in
theorem spellsFloat_small (negative : Bool) (k : Nat) :
    SpellsFloat negative ('0' :: '.' :: List.replicate k '0' ++ Nat.toDigits 10 n) := by
  have hmore : Digits (List.replicate k '0' ++ Nat.toDigits 10 n) := by
    intro c hc
    exact (List.mem_append.mp hc).elim (digits_zeros k c) (digits_toDigits n c)
  rw [List.cons_append, List.cons_append, ← List.singleton_append]
  refine spellsFloat_point whole_zero hmore (by simp [Nat.toDigits_ne_nil]) ?_
  apply exists_float
  · rw [value_append, value_append, value_toDigits, value_zeros, value_zero, wordLimit_eq]
    omega
  · refine exists_scale_down 4 _ ?_
    have hlength := Nat.length_toDigits_pos (b := 10) (n := n)
    rw [List.length_append]
    omega

include hpos hshort in
theorem spellsFloat_power (negative : Bool) {place : Int} (hplace : place ≤ exponentLimit)
    (hscale : ∃ y, scale 4 (.ofNat n) (place - ((Nat.toDigits 10 n).length - 1 : Nat)) = some y) :
    SpellsFloat negative ((if (Nat.toDigits 10 n).length = 1 then Nat.toDigits 10 n
      else pointed (Nat.toDigits 10 n) 1) ++
        'e' :: (if place < 0 then '-' else '+') :: Nat.toDigits 10 place.natAbs) := by
  have hlength := Nat.length_toDigits_pos (b := 10) (n := n)
  obtain ⟨y, hy⟩ := withExponent?_place hplace (exists_float_cut hshort negative 1 hscale)
  split
  · rename_i hone
    rw [List.take_of_length_le (by omega), List.drop_eq_nil_of_le (by omega)] at hy
    exact ⟨_, y, .parts (whole_toDigits n) .absent (.lower (spellsPower_place place)), hy⟩
  · rename_i hmore
    have hdrop : (Nat.toDigits 10 n).drop 1 ≠ [] := by
      simp only [ne_eq, List.drop_eq_nil_iff]
      omega
    rw [pointed, List.append_assoc]
    exact ⟨_, y, .parts (whole_take hpos Nat.one_pos) (.point (digits_drop n 1) hdrop)
      (.lower (spellsPower_place place)), hy⟩

theorem spellsFloat_decimal {d : Decimal} (hpos : 0 < d.digits) (hshort : d.digits ≤ 10 ^ 17)
    (negative : Bool) (hplace : d.place < 310)
    (hscale : ∃ y, scale 4 (.ofNat d.digits) d.exponent = some y) :
    SpellsFloat negative (decimalChars d) := by
  have hlength := Nat.length_toDigits_pos (b := 10) (n := d.digits)
  rw [Decimal.place] at hplace
  rw [decimalChars]
  split
  · rename_i hpositional
    rw [leastPositional, greatestPositional] at hpositional
    split
    · exact spellsFloat_filled hpos negative (by omega)
    · rename_i hneg
      split
      · rw [pointed]
        exact spellsFloat_point (whole_take hpos (by omega)) (digits_drop _ _)
          (by simp only [ne_eq, List.drop_eq_nil_iff]; omega)
          (exists_float_cut hshort negative _ (exists_scale_down 4 _ (by omega)))
      · exact spellsFloat_small hshort negative _
  · apply spellsFloat_power hpos hshort negative (Int.le_trans (Int.le_of_lt hplace) (by decide))
    rwa [show ((Nat.toDigits 10 d.digits).length : Int) - 1 + d.exponent -
      ((Nat.toDigits 10 d.digits).length - 1 : Nat) = d.exponent by omega]

end Decimal

/-! ## Words -/

def InRange (i : Int) : Prop := -Nat.pow 2 63 ≤ i ∧ i ≤ wordLimit

theorem inRange_iff {i : Int} :
    InRange i ↔ -9223372036854775808 ≤ i ∧ i ≤ 18446744073709551615 := Iff.rfl

theorem spells_integerChars {i : Int} (h : InRange i) :
    ∃ n, Spells (integerChars i) n ∧ n.toJson? = some (.integer i) := by
  obtain ⟨hlow, hhigh⟩ := h
  have hpow : Nat.pow 2 63 = 9223372036854775808 := rfl
  have hspells (negative : Bool) :
      SpellsUnsigned negative (Nat.toDigits 10 i.natAbs ++ ([] ++ [])) _ :=
    .parts (whole_toDigits i.natAbs) .absent .absent
  simp only [List.append_nil] at hspells
  rw [integerChars]
  split
  · rename_i hneg
    refine ⟨_, .negative (hspells true), ?_⟩
    simp only [Numeral.toJson?, if_true, integer?, value_toDigits]
    rw [if_neg (by omega), show -(i.natAbs : Int) = i by omega]
  · rename_i hnonneg
    refine ⟨_, .positive (hspells false), ?_⟩
    simp only [Numeral.toJson?, if_true, integer?, value_toDigits, Bool.false_eq_true, if_false]
    rw [if_pos (by omega), show (i.natAbs : Int) = i by omega]

theorem SpellsFloat.signed {cs : List Char} (h : SpellsFloat negative cs) :
    ∃ n y, Spells ((if negative then ['-'] else []) ++ cs) n ∧ n.toJson? = some (.float y) := by
  obtain ⟨n, y, hn, hy⟩ := h
  cases negative with
  | true => exact ⟨n, y, .negative hn, hy⟩
  | false => exact ⟨n, y, .positive hn, hy⟩

theorem spells_floatChars {x : Binary64} (hx : x.isFinite = true) :
    ∃ n y, Spells (floatChars x) n ∧ n.toJson? = some (.float y) := by
  have hzero : SpellsFloat x.isNegative ['0', '.', '0'] :=
    spellsFloat_point whole_zero whole_zero.digits (List.cons_ne_nil '0' [])
      (exists_float (by decide) (exists_scale_down 4 _ (by decide)))
  rw [floatChars]
  cases hd : Decimal.shortest? (.ofFields false x.magnitude) with
  | none => exact hzero.signed
  | some d =>
    rcases Nat.eq_zero_or_pos x.magnitude with hnone | hpos
    · simp only [if_pos hnone]
      exact hzero.signed
    · have hlt := (Binary64.isFinite_iff x).mp hx
      have hspells := Decimal.spells_of_shortest? hpos hlt hd
      have hbody := spellsFloat_decimal hspells.positive hspells.short x.isNegative hspells.place
        (exists_scale hpos hlt hd)
      simp only [if_neg (Nat.ne_of_gt hpos)]
      exact hbody.signed

/-! ## What words stand for -/

def Fits : Json → Prop
  | .integer i => InRange i
  | .float x => x.isFinite = true
  | _ => False

theorem significant_le {limit : Nat} (hn : n ≤ limit) (cs : List Char) :
    (significant limit n cs).1 ≤ limit := by
  induction cs generalizing n with
  | nil => exact hn
  | cons c cs ih =>
    rw [significant]
    split
    · exact hn
    · rename_i hle
      exact ih (Nat.le_of_not_lt hle)

theorem ofParts?_isFinite {significand : Nat} {x : Binary64} (hle : significand ≤ wordLimit)
    (h : ofParts? negative significand exponent = some x) : x.isFinite = true := by
  obtain ⟨y, hy, rfl⟩ := Option.map_eq_some_iff.mp h
  have hfinite := scale_isFinite (ofNat_isFinite hle) hy
  split
  · rw [Binary64.isFinite, Binary64.magnitude_neg]
    exact hfinite
  · exact hfinite

theorem float?_fits {v : Json} (h : float? negative whole fraction exponent = some v) :
    Fits v := by
  have hhead := significant_le (Nat.zero_le wordLimit) whole
  have hparts {significand : Nat} {places : Int} (hle : significand ≤ wordLimit)
      (hmap : (ofParts? negative significand places).map Json.float = some v) : Fits v := by
    obtain ⟨x, hx, rfl⟩ := Option.map_eq_some_iff.mp hmap
    exact ofParts?_isFinite hle hx
  rw [float?] at h
  generalize significant wordLimit 0 whole = head at h hhead
  obtain ⟨head, dropped⟩ := head
  cases dropped with
  | nil => exact hparts (significant_le hhead fraction) h
  | cons e dropped =>
    cases fraction with
    | nil => exact hparts hhead h
    | cons c cs =>
      by_cases hc : wordLimit < 10 * head + digitValue c
      · simp only [List.isEmpty_cons, Bool.false_eq_true, if_false, if_pos hc] at h
        exact hparts hhead h
      · simp only [List.isEmpty_cons, Bool.false_eq_true, if_false, if_neg hc] at h
        exact hparts (significant_le hhead (c :: cs)) h

theorem integer?_fits {v : Json} (h : integer? negative whole = some v) : Fits v := by
  rw [integer?, wordLimit_eq, show Nat.pow 2 63 = 9223372036854775808 from rfl] at h
  split at h
  · split at h
    · exact float?_fits h
    · cases h
      rw [Fits, inRange_iff]
      omega
  · split at h
    · cases h
      rw [Fits, inRange_iff]
      omega
    · exact float?_fits h

theorem withExponent?_fits {e : Exponent} {v : Json}
    (h : withExponent? negative whole fraction e = some v) : Fits v := by
  simp only [withExponent?] at h
  split at h
  · split at h
    · cases h
      rw [Fits, Binary64.isFinite_iff, Decimal.magnitude_zero]
      decide
    · cases h
  · exact float?_fits h

theorem toJson?_fits {n : Numeral} {v : Json} (h : n.toJson? = some v) : Fits v := by
  rw [Numeral.toJson?] at h
  split at h
  · exact withExponent?_fits h
  · split at h
    · exact integer?_fits h
    · exact float?_fits h

theorem integer_or_float {n : Numeral} {v : Json} (h : n.toJson? = some v) :
    (∃ i, v = .integer i) ∨ ∃ x, v = .float x := by
  have hfits := toJson?_fits h
  cases v with
  | integer i => exact Or.inl ⟨i, rfl⟩
  | float x => exact Or.inr ⟨x, rfl⟩
  | null | bool | string | array | object => exact hfits.elim

end Rebuild.Json.Number
