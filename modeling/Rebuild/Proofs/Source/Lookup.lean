import Rebuild.Proofs.Source.Starts
import Rebuild.Source.File

/-!
# Looking up lines and columns

The line of a place is found by bisection among the starts of lines, and its
column is counted from the start that was found. Both are what counting the
characters in front of the place gives. So places further on come later, and
no two places of a text have the same line and column.
-/

set_option autoImplicit false

namespace Rebuild

namespace LineIndex

variable {ix : LineIndex} {place : UInt32} {low high i : Nat}

/-! ## Bisection -/

def Ascends (ix : LineIndex) : Prop :=
  ∀ i j, i < j → j < ix.lineCount → ix.startOf i < ix.startOf j

/-- Starts outside of a window are not the place: those below it come before the place, those above
it behind. -/
structure Narrows (ix : LineIndex) (place : UInt32) (low high : Nat) : Prop where
  below : ∀ j < low, ix.startOf j < place
  above : ∀ j, high ≤ j → j < ix.lineCount → place < ix.startOf j

theorem searchIn_ok (h : ix.searchIn place low high = .ok i) :
    i < high ∧ ix.startOf i = place := by
  fun_induction searchIn ix place low high with
  | case1 low high hlt middle start heq =>
    rw [← Except.ok.inj h]
    exact ⟨by omega, heq⟩
  | case2 low high hlt middle start hne hless ih => exact ih h
  | case3 low high hlt middle start hne hless ih =>
    obtain ⟨hi, hstart⟩ := ih h
    exact ⟨by omega, hstart⟩
  | case4 low high hge => cases h

theorem searchIn_error (hascends : ix.Ascends) (hwindow : low ≤ high) (hhigh : high ≤ ix.lineCount)
    (hnarrows : ix.Narrows place low high) (h : ix.searchIn place low high = .error i) :
    ix.Narrows place i i ∧ i ≤ ix.lineCount := by
  fun_induction searchIn ix place low high with
  | case1 low high hlt middle start heq => cases h
  | case2 low high hlt middle start hne hless ih =>
    refine ih (by omega) hhigh ⟨fun j hj => ?_, hnarrows.above⟩ h
    rcases Nat.lt_or_eq_of_le (Nat.le_of_lt_succ hj) with hj | rfl
    · exact UInt32.lt_trans (hascends j middle hj (by omega)) hless
    · exact hless
  | case3 low high hlt middle start hne hless ih =>
    have hplace : place < ix.startOf middle :=
      UInt32.lt_of_le_of_ne (UInt32.not_lt.mp hless) (Ne.symm hne)
    refine ih (by omega) (by omega) ⟨hnarrows.below, fun j hj hcount => ?_⟩ h
    rcases Nat.lt_or_eq_of_le hj with hj | rfl
    · exact UInt32.lt_trans hplace (hascends middle j hj hcount)
    · exact hplace
  | case4 low high hge =>
    rw [← Except.error.inj h]
    have hempty : high ≤ low := Nat.not_lt.mp hge
    exact ⟨⟨hnarrows.below, fun j hj => hnarrows.above j (Nat.le_trans hempty hj)⟩,
      Nat.le_trans hwindow hhigh⟩

theorem lineAt_eq (hascends : ix.Ascends) {k : Nat} (hk : k < ix.lineCount)
    (hstart : ix.startOf k ≤ place)
    (hnext : ∀ j, k < j → j < ix.lineCount → place < ix.startOf j) :
    ix.lineAt place = k ∧ ∀ j, ix.search place = .error j → 0 < j := by
  rw [lineAt]
  cases hsearch : ix.search place with
  | ok i =>
    obtain ⟨hi, rfl⟩ := searchIn_ok hsearch
    refine ⟨?_, fun j hj => by cases hj⟩
    rcases Nat.lt_trichotomy i k with hik | hik | hik
    · exact absurd (hascends i k hik hk) (UInt32.not_lt.mpr hstart)
    · exact hik
    · exact absurd (hnext i hik hi) (UInt32.lt_irrefl _)
  | error i =>
    obtain ⟨hnarrows, hi⟩ := searchIn_error hascends (Nat.zero_le _) (Nat.le_refl _)
      ⟨fun j hj => absurd hj (Nat.not_lt_zero j), fun j hj hcount => absurd hcount (by omega)⟩
      hsearch
    have hlow : k < i := by
      by_contra hge
      exact absurd (hnarrows.above k (by omega) hk) (UInt32.not_lt.mpr hstart)
    have hhigh : i ≤ k + 1 := by
      by_contra hlt
      exact absurd (hnarrows.below (k + 1) (by omega))
        (UInt32.lt_asymm (hnext (k + 1) (by omega) (by omega)))
    refine ⟨by dsimp only; omega, fun j hj => ?_⟩
    cases hj
    omega

/-! ## The index of a text -/

variable {text : String}

theorem toNat_startOf (h : text.length < UInt32.size) (j : Nat) :
    ((ofText text).startOf j).toNat = (lineStarts text.toList)[j]?.getD 0 := by
  rw [← ofText_starts h, List.getElem?_map, startOf, Array.getD_eq_getD_getElem?,
    ← Array.getElem?_toList]
  cases (ofText text).starts.toList[j]? <;> rfl

theorem lineCount_ofText (h : text.length < UInt32.size) :
    (ofText text).lineCount = (lineStarts text.toList).length := by
  rw [← ofText_starts h, List.length_map, lineCount, Array.length_toList]

theorem ofText_ascends (h : text.length < UInt32.size) : (ofText text).Ascends := by
  intro i j hij hj
  rw [lineCount_ofText h] at hj
  rw [UInt32.lt_iff_toNat_lt, toNat_startOf h, toNat_startOf h,
    List.getElem?_eq_getElem (Nat.lt_trans hij hj), List.getElem?_eq_getElem hj]
  exact List.pairwise_iff_getElem.mp (pairwise_lineStarts _) i j _ hj hij

/-- The line of a place is the number of newlines in front of it, and what is left of the place
behind the start of the line is what stands behind the last of these. -/
theorem lineAt_ofText (h : text.length < UInt32.size) {front back : List Char}
    (htext : text.toList = front ++ back) (hplace : place.toNat = front.length) :
    (ofText text).lineAt place = front.count '\n' ∧
      ((ofText text).startOf (front.count '\n')).toNat + tailLength front = place.toNat ∧
      front.count '\n' < (ofText text).lineCount ∧
      ∀ j, (ofText text).search place = .error j → 0 < j := by
  have hstarts : lineStarts text.toList = lineStarts front ++ startsFrom front.length back := by
    rw [htext, lineStarts, startsFrom_append, Nat.zero_add]
    rfl
  have hcount : front.count '\n' < (lineStarts front).length := by
    rw [length_lineStarts]
    omega
  have hlines : front.count '\n' < (ofText text).lineCount := by
    rw [lineCount_ofText h, hstarts, List.length_append]
    omega
  obtain ⟨last, hlast, hlength⟩ := last_lineStarts front
  have hstart : ((ofText text).startOf (front.count '\n')).toNat = last := by
    rw [toNat_startOf h, hstarts, List.getElem?_append_left hcount, hlast, Option.getD_some]
  have hnext (j : Nat) (hj : front.count '\n' < j) (hjcount : j < (ofText text).lineCount) :
      place < (ofText text).startOf j := by
    rw [lineCount_ofText h, hstarts] at hjcount
    rw [UInt32.lt_iff_toNat_lt, toNat_startOf h, hstarts, List.getElem?_eq_getElem hjcount,
      Option.getD_some, List.getElem_append_right (by rw [length_lineStarts]; omega), hplace]
    exact (startsFrom_bounds (List.getElem_mem _)).1
  obtain ⟨hline, hinserted⟩ := lineAt_eq (ofText_ascends h) hlines
    (UInt32.le_iff_toNat_le.mpr (by omega)) hnext
  exact ⟨hline, by omega, hlines, hinserted⟩

/-! ## Lines and columns by counting -/

/-- No step of looking a place up leaves the range of its words. -/
structure Exact (ix : LineIndex) (place : UInt32) : Prop where
  inserted : ∀ i, ix.search place = .error i → 0 < i
  line : ix.lineAt place < ix.lineCount
  lines : ix.lineAt place + 1 < UInt32.size
  start : ix.startOf (ix.lineAt place) ≤ place
  columns : (place - ix.startOf (ix.lineAt place)).toNat + 1 < UInt32.size

theorem lookup_exact (h : text.length < UInt32.size - 1) {front back : List Char}
    (htext : text.toList = front ++ back) (hplace : place.toNat = front.length) :
    let ix := ofText text
    (UInt32.ofNat (ix.lineAt place) + 1).toNat = 1 + front.count '\n' ∧
      (place - ix.startOf (ix.lineAt place) + 1).toNat = 1 + tailLength front ∧
      ix.Exact place := by
  intro ix
  have hfits : text.length < UInt32.size := by omega
  obtain ⟨hline, hsum, hlines, hinserted⟩ := lineAt_ofText hfits htext hplace
  have hfront : front.length ≤ text.length := by
    rw [← String.length_toList, htext, List.length_append]
    omega
  have hcount : front.count '\n' ≤ front.length := List.count_le_length
  have hstart : ix.startOf (front.count '\n') ≤ place := by
    rw [UInt32.le_iff_toNat_le]
    exact Nat.le.intro hsum
  have hcolumn : (place - ix.startOf (front.count '\n')).toNat = tailLength front := by
    rw [UInt32.toNat_sub_of_le _ _ hstart]
    exact Nat.sub_eq_of_eq_add' hsum.symm
  have hword : (UInt32.ofNat (front.count '\n')).toNat = front.count '\n' :=
    UInt32.toNat_ofNat_of_lt' (by omega)
  have hrange : (place - ix.startOf (front.count '\n')).toNat + 1 < UInt32.size := by omega
  refine ⟨?_, ?_, hinserted, ?_, ?_, ?_, ?_⟩
  · rw [hline, toNat_succ (by omega), hword, Nat.add_comm]
  · rw [hline, toNat_succ hrange, hcolumn, Nat.add_comm]
  · rw [hline]
    exact hlines
  · rw [hline]
    omega
  · rw [hline]
    exact hstart
  · rw [hline]
    exact hrange

def Before (p q : UInt32 × UInt32) : Prop := p.1 < q.1 ∨ p.1 = q.1 ∧ p.2 < q.2

theorem counted_lt (front : List Char) {middle : List Char} (h : middle ≠ []) :
    front.count '\n' < (front ++ middle).count '\n' ∨
      front.count '\n' = (front ++ middle).count '\n' ∧
        tailLength front < tailLength (front ++ middle) := by
  rw [List.count_append]
  by_cases hnewline : '\n' ∈ middle
  · have hpositive := List.count_pos_iff.mpr hnewline
    omega
  · have hlength := List.length_pos_iff.mpr h
    rw [List.count_eq_zero.mpr hnewline, tailLength_append front hnewline]
    omega

end LineIndex

namespace SourceFile

open LineIndex

variable {f : SourceFile}

def front (f : SourceFile) (offset : UInt32) : List Char :=
  f.content.toList.take (min offset.toNat f.content.length)

theorem front_length (f : SourceFile) (offset : UInt32) :
    (f.front offset).length = min offset.toNat f.content.length := by
  rw [front, List.length_take, String.length_toList]
  omega

theorem lineColumn_exact (h : f.content.length < UInt32.size - 1) (offset : UInt32) :
    (f.lineColumn offset).1.toNat = 1 + (f.front offset).count '\n' ∧
      (f.lineColumn offset).2.toNat = 1 + tailLength (f.front offset) ∧
      f.lineIndex.Exact (min offset f.lineIndex.size) := by
  have hplace : (min offset f.lineIndex.size).toNat = (f.front offset).length := by
    rw [UInt32.toNat_min, lineIndex, ofText_size (by omega), front_length]
  exact lookup_exact h (List.take_append_drop _ _).symm hplace

theorem lineColumn_before (h : f.content.length < UInt32.size - 1) {a b : UInt32} (hab : a < b)
    (hb : b.toNat ≤ f.content.length) : Before (f.lineColumn a) (f.lineColumn b) := by
  have hlt : a.toNat < b.toNat := UInt32.lt_iff_toNat_lt.mp hab
  obtain ⟨middle, hmiddle⟩ : f.front a <+: f.front b :=
    List.take_prefix_take_left (by omega)
  have hne : middle ≠ [] := by
    rintro rfl
    have hlength := congrArg List.length hmiddle
    rw [List.append_nil, front_length, front_length] at hlength
    omega
  obtain ⟨hline, hcolumn, -⟩ := lineColumn_exact h a
  obtain ⟨hline', hcolumn', -⟩ := lineColumn_exact h b
  have hcounted := counted_lt (f.front a) hne
  rw [hmiddle] at hcounted
  rw [Before, UInt32.lt_iff_toNat_lt, UInt32.lt_iff_toNat_lt, ← UInt32.toNat_inj, hline, hcolumn,
    hline', hcolumn']
  omega

theorem lineColumn_injective (h : f.content.length < UInt32.size - 1) {a b : UInt32}
    (ha : a.toNat ≤ f.content.length) (hb : b.toNat ≤ f.content.length)
    (hsame : f.lineColumn a = f.lineColumn b) : a = b := by
  have hirrefl (p : UInt32 × UInt32) : ¬Before p p := by
    simp [Before]
  rcases Nat.lt_trichotomy a.toNat b.toNat with hab | hab | hab
  · have hbefore := lineColumn_before h (UInt32.lt_iff_toNat_lt.mpr hab) hb
    rw [hsame] at hbefore
    exact absurd hbefore (hirrefl _)
  · exact UInt32.toNat_inj.mp hab
  · have hbefore := lineColumn_before h (UInt32.lt_iff_toNat_lt.mpr hab) ha
    rw [hsame] at hbefore
    exact absurd hbefore (hirrefl _)

/-- The line and the column of a place are counted: one more than the newlines in front of it, and
one more than the characters behind the last of these. No word overflows on the way, neither while
the characters are counted nor in the lookup. Places further on come later, so the place is known
from its line and column. -/
theorem lineColumn_counts (f : SourceFile) (h : f.content.length < UInt32.size - 1) :
    (∀ front back, f.content.toList = front ++ back →
      (scan 0 #[0] front).size.toNat = front.length) ∧
    (∀ offset,
      let front := f.content.toList.take (min offset.toNat f.content.length)
      (f.lineColumn offset).1.toNat = 1 + front.count '\n' ∧
      (f.lineColumn offset).2.toNat = 1 + (front.reverse.takeWhile (· ≠ '\n')).length ∧
      f.lineIndex.Exact (min offset f.lineIndex.size)) ∧
    (∀ a b, a < b → b.toNat ≤ f.content.length → Before (f.lineColumn a) (f.lineColumn b)) ∧
    ∀ a b, a.toNat ≤ f.content.length → b.toNat ≤ f.content.length →
      f.lineColumn a = f.lineColumn b → a = b := by
  refine ⟨fun front back htext => ?_, lineColumn_exact h, fun a b => lineColumn_before h,
    fun a b => lineColumn_injective h⟩
  have hlength := congrArg List.length htext
  rw [String.length_toList, List.length_append] at hlength
  have hzero : (0 : UInt32).toNat = 0 := rfl
  rw [scan_size _ (by omega), hzero, Nat.zero_add]

theorem lineColumn_counts_two :
    let f : SourceFile := ⟨⟨"a.ts"⟩, "ab\nc"⟩
    f.content.length < UInt32.size - 1 ∧ f.lineColumn 4 = (2, 2) ∧ f.lineColumn 99 = (2, 2) := by
  intro f
  have h : f.content.length < UInt32.size - 1 := by decide
  obtain ⟨-, hcounts, -, -⟩ := lineColumn_counts f h
  have hplace (offset : UInt32) (hoffset : 4 ≤ offset.toNat) : f.lineColumn offset = (2, 2) := by
    obtain ⟨hline, hcolumn, -⟩ := hcounts offset
    have hlength : f.content.length = 4 := by decide
    have hcontent : f.content.toList = ['a', 'b', '\n', 'c'] := by decide
    rw [hlength, Nat.min_eq_right hoffset, hcontent] at hline hcolumn
    exact Prod.ext (UInt32.toNat_inj.mp hline) (UInt32.toNat_inj.mp hcolumn)
  exact ⟨h, hplace 4 (by decide), hplace 99 (by decide)⟩

end SourceFile

end Rebuild
