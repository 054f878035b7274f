import Mathlib.Data.List.Induction
import Rebuild.Source.LineIndex

/-!
# Where lines start

The index of a text that fits a word lists the places behind its newlines, in
order, and counts its characters. The last line of a text starts as far from
the end as there are characters behind the last newline.
-/

set_option autoImplicit false

namespace Rebuild.LineIndex

variable {start : Nat} {cs : List Char}

/-! ## Places behind newlines -/

def startsFrom : Nat → List Char → List Nat
  | _, [] => []
  | start, c :: cs =>
    if c = '\n' then (start + 1) :: startsFrom (start + 1) cs else startsFrom (start + 1) cs

theorem startsFrom_append (start : Nat) (front back : List Char) :
    startsFrom start (front ++ back) =
      startsFrom start front ++ startsFrom (start + front.length) back := by
  induction front generalizing start with
  | nil => rfl
  | cons c front ih =>
    have hplace : start + 1 + front.length = start + (c :: front).length := by
      rw [List.length_cons]
      omega
    rw [List.cons_append, startsFrom, startsFrom, ih, hplace]
    split <;> rfl

theorem length_startsFrom (start : Nat) (cs : List Char) :
    (startsFrom start cs).length = cs.count '\n' := by
  induction cs generalizing start with
  | nil => rfl
  | cons c cs ih =>
    by_cases hc : c = '\n'
    · simp [startsFrom, hc, ih]
    · simp [startsFrom, hc, ih]

theorem startsFrom_bounds {s : Nat} (h : s ∈ startsFrom start cs) :
    start < s ∧ s ≤ start + cs.length := by
  induction cs generalizing start with
  | nil => cases h
  | cons c cs ih =>
    rw [startsFrom] at h
    rw [List.length_cons]
    split at h
    · rcases List.mem_cons.mp h with rfl | h
      · omega
      · have hrest := ih h
        omega
    · have hrest := ih h
      omega

theorem pairwise_startsFrom (start : Nat) (cs : List Char) :
    (startsFrom start cs).Pairwise (· < ·) := by
  induction cs generalizing start with
  | nil => exact List.Pairwise.nil
  | cons c cs ih =>
    rw [startsFrom]
    split
    · exact List.pairwise_cons.mpr ⟨fun s hs => (startsFrom_bounds hs).1, ih _⟩
    · exact ih _

def lineStarts (cs : List Char) : List Nat := 0 :: startsFrom 0 cs

theorem pairwise_lineStarts (cs : List Char) : (lineStarts cs).Pairwise (· < ·) :=
  List.pairwise_cons.mpr ⟨fun _ hs => (startsFrom_bounds hs).1, pairwise_startsFrom 0 cs⟩

theorem length_lineStarts (cs : List Char) : (lineStarts cs).length = cs.count '\n' + 1 := by
  rw [lineStarts, List.length_cons, length_startsFrom]

def tailLength (cs : List Char) : Nat := (cs.reverse.takeWhile (· ≠ '\n')).length

theorem tailLength_append (front : List Char) {back : List Char} (h : '\n' ∉ back) :
    tailLength (front ++ back) = tailLength front + back.length := by
  rw [tailLength, tailLength, List.reverse_append, List.takeWhile_append_of_pos]
  · rw [List.length_append, List.length_reverse, Nat.add_comm]
  · intro c hc
    have hne : c ≠ '\n' := fun heq => h (heq ▸ List.mem_reverse.mp hc)
    simpa using hne

theorem tailLength_newline (front : List Char) : tailLength (front ++ ['\n']) = 0 := by
  simp [tailLength]

theorem last_lineStarts (cs : List Char) :
    ∃ last, (lineStarts cs)[cs.count '\n']? = some last ∧ last + tailLength cs = cs.length := by
  induction cs using List.reverseRecOn with
  | nil => exact ⟨0, rfl, rfl⟩
  | append_singleton cs c ih =>
    obtain ⟨last, hlast, hlength⟩ := ih
    have hstarts : lineStarts (cs ++ [c]) = lineStarts cs ++ startsFrom cs.length [c] := by
      rw [lineStarts, startsFrom_append, Nat.zero_add]
      rfl
    rw [hstarts, List.count_append, List.length_append]
    by_cases hc : c = '\n'
    · refine ⟨cs.length + 1, ?_, ?_⟩
      · rw [hc, List.count_singleton_self, ← length_lineStarts]
        exact List.getElem?_concat_length
      · rw [hc, tailLength_newline]
        rfl
    · refine ⟨last, ?_, ?_⟩
      · rw [startsFrom, if_neg hc, startsFrom, List.append_nil]
        simpa [hc] using hlast
      · rw [tailLength_append cs (by simpa using Ne.symm hc), List.length_singleton]
        omega

/-! ## The index -/

theorem toNat_succ {a : UInt32} (h : a.toNat + 1 < UInt32.size) : (a + 1).toNat = a.toNat + 1 := by
  rw [UInt32.toNat_add]
  exact Nat.mod_eq_of_lt h

/-- A text that fits a word is counted without an overflow. -/
theorem scan_size {count : UInt32} (starts : Array UInt32)
    (h : count.toNat + cs.length < UInt32.size) :
    (scan count starts cs).size.toNat = count.toNat + cs.length := by
  induction cs generalizing count starts with
  | nil => rfl
  | cons c cs ih =>
    rw [List.length_cons] at h ⊢
    have hnext := toNat_succ (a := count) (by omega)
    rw [scan, ih _ (by rw [hnext]; omega), hnext]
    omega

theorem scan_starts {count : UInt32} (starts : Array UInt32)
    (h : count.toNat + cs.length < UInt32.size) :
    (scan count starts cs).starts.toList.map UInt32.toNat =
      starts.toList.map UInt32.toNat ++ startsFrom count.toNat cs := by
  induction cs generalizing count starts with
  | nil => rw [scan, startsFrom, List.append_nil]
  | cons c cs ih =>
    rw [List.length_cons] at h
    have hnext := toNat_succ (a := count) (by omega)
    rw [scan, ih _ (by rw [hnext]; omega), hnext, startsFrom]
    split <;> simp [hnext]

variable {text : String}

theorem ofText_size (h : text.length < UInt32.size) : (ofText text).size.toNat = text.length := by
  rw [← String.length_toList] at h ⊢
  rw [ofText, scan_size _ (by simpa using h)]
  simp

theorem ofText_starts (h : text.length < UInt32.size) :
    (ofText text).starts.toList.map UInt32.toNat = lineStarts text.toList := by
  rw [← String.length_toList] at h
  rw [ofText, scan_starts _ (by simpa using h)]
  rfl

end Rebuild.LineIndex
