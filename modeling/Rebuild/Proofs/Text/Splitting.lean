import Rebuild.Text.Blank
import Rebuild.Text.Split

/-!
# Where a text is split

The first split of a text is at the place of its pattern that no other is
before, and the last one at the place that no other is behind. A text without
blanks is not trimmed.
-/

set_option autoImplicit false

namespace Rebuild.Text

variable {pattern cs before after : List Char}

theorem splitFrom?_eq (pattern backward cs : List Char) :
    splitFrom? pattern backward cs =
      (splitFirst? pattern cs).map fun r => (backward.reverse ++ r.1, r.2) := by
  induction cs generalizing backward with
  | nil =>
    rw [splitFirst?, splitFrom?, splitFrom?]
    split <;> simp
  | cons c cs ih =>
    rw [splitFirst?, splitFrom?, splitFrom?]
    split
    · simp
    · rw [ih, ih [c], Option.map_map]
      simp [Function.comp_def]

theorem splitFirst?_cons (pattern : List Char) (c : Char) (cs : List Char) :
    splitFirst? pattern (c :: cs) =
      if pattern.isPrefixOf (c :: cs) then some ([], (c :: cs).drop pattern.length)
      else (splitFirst? pattern cs).map fun r => (c :: r.1, r.2) := by
  rw [splitFirst?, splitFrom?, splitFrom?_eq]
  rfl

theorem exists_splitFirst? (h : cs = before ++ pattern ++ after) :
    ∃ first rest, splitFirst? pattern cs = some (first, rest) ∧ first.length ≤ before.length := by
  induction cs generalizing before with
  | nil =>
    obtain ⟨rfl, rfl, rfl⟩ : before = [] ∧ pattern = [] ∧ after = [] := by simpa using h
    exact ⟨[], [], rfl, Nat.le_refl _⟩
  | cons c cs ih =>
    rw [splitFirst?_cons]
    split
    · exact ⟨_, _, rfl, Nat.zero_le _⟩
    · rename_i hno
      cases before with
      | nil =>
        rw [h, List.nil_append] at hno
        exact absurd (List.isPrefixOf_iff_prefix.mpr (List.prefix_append _ _)) hno
      | cons d before =>
        obtain ⟨first, rest, hfirst, hlength⟩ := ih (List.cons.inj h).2
        exact ⟨c :: first, rest, by rw [hfirst]; rfl, Nat.succ_le_succ hlength⟩

theorem splitFirst?_eq_some_iff :
    splitFirst? pattern cs = some (before, after) ↔ cs = before ++ pattern ++ after ∧
      ∀ first rest, cs = first ++ pattern ++ rest → before.length ≤ first.length := by
  constructor
  · intro h
    refine ⟨splitFirst?_eq_some h, fun first rest hother => ?_⟩
    obtain ⟨a, b, hab, hlength⟩ := exists_splitFirst? hother
    cases h.symm.trans hab
    exact hlength
  · rintro ⟨h, hfirst⟩
    obtain ⟨a, b, hab, hlength⟩ := exists_splitFirst? h
    have hsplit := splitFirst?_eq_some hab
    have hsame : before.length = a.length := Nat.le_antisymm (hfirst a b hsplit) hlength
    rw [h, List.append_assoc, List.append_assoc] at hsplit
    obtain ⟨rfl, hrest⟩ := List.append_inj hsplit hsame
    rw [hab, List.append_cancel_left hrest]

theorem reverse_eq_iff (before after : List Char) :
    cs.reverse = after.reverse ++ pattern.reverse ++ before.reverse ↔
      cs = before ++ pattern ++ after := by
  constructor
  · intro h
    simpa using congrArg List.reverse h
  · intro h
    rw [h]
    simp

theorem splitLast?_eq_some_iff :
    splitLast? pattern cs = some (before, after) ↔ cs = before ++ pattern ++ after ∧
      ∀ first rest, cs = first ++ pattern ++ rest → first.length ≤ before.length := by
  have hmirror : splitLast? pattern cs = some (before, after) ↔
      splitFirst? pattern.reverse cs.reverse = some (after.reverse, before.reverse) := by
    rw [splitLast?, Option.map_eq_some_iff]
    constructor
    · rintro ⟨⟨a, b⟩, hab, he⟩
      obtain ⟨rfl, rfl⟩ := Prod.mk.inj he
      rw [hab, List.reverse_reverse, List.reverse_reverse]
    · intro h
      exact ⟨_, h, by rw [List.reverse_reverse, List.reverse_reverse]⟩
  rw [hmirror, splitFirst?_eq_some_iff, reverse_eq_iff]
  refine and_congr_right fun h => ?_
  have hlength (first rest : List Char) (hother : cs = first ++ pattern ++ rest) :
      after.length ≤ rest.length ↔ first.length ≤ before.length := by
    have hsum := congrArg List.length (h.symm.trans hother)
    simp only [List.length_append] at hsum
    omega
  constructor
  · intro hlast first rest hother
    have hshort := hlast rest.reverse first.reverse ((reverse_eq_iff first rest).mpr hother)
    rw [List.length_reverse, List.length_reverse] at hshort
    exact (hlength first rest hother).mp hshort
  · intro hlast first rest hother
    rw [← List.reverse_reverse first, ← List.reverse_reverse rest, reverse_eq_iff] at hother
    have hshort := (hlength _ _ hother).mpr (hlast _ _ hother)
    rwa [List.length_reverse] at hshort ⊢

theorem trimStart_eq_self (h : ∀ c ∈ cs, isBlank c = false) : trimStart cs = cs := by
  cases cs with
  | nil => rfl
  | cons c cs => rw [trimStart, List.dropWhile_cons_of_neg (by simp [h c (List.mem_cons_self ..)])]

theorem span_append {p : Char → Bool} {a b : List Char} (ha : ∀ c ∈ a, p c = true)
    (hb : ∀ e rest, b = e :: rest → p e = false) :
    (a ++ b).takeWhile p = a ∧ (a ++ b).dropWhile p = b := by
  rw [List.takeWhile_append_of_pos ha, List.dropWhile_append_of_pos ha]
  cases b with
  | nil => simp
  | cons e rest => simp [hb e rest rfl]

theorem trim_eq_self (h : ∀ c ∈ cs, isBlank c = false) : trim cs = cs := by
  rw [trim, trimStart_eq_self h, trimStart_eq_self (by simpa using h), List.reverse_reverse]

end Rebuild.Text
