import Mathlib.Data.List.Basic
import Rebuild.Proofs.SourceMap.Base64
import Rebuild.Proofs.SourceMap.Found

/-!
# Comments that are written again

A comment whose payload is replaced is found again at its place. The last
opening of the text stays the last one, as no other can overlap it or stand
in the new payload.
-/

set_option autoImplicit false

namespace Rebuild.SourceMap

variable {output : List Char} {c : Comment} {payload : List Char}

/-- What can stand in a payload: it ends no line and opens no comment. -/
def IsPlain (ch : Char) : Prop := isLineEnd ch = false ∧ ch ≠ '#'

instance (ch : Char) : Decidable (IsPlain ch) := by
  unfold IsPlain
  infer_instance

def openingTail : List Char := opening.drop 3

theorem opening_eq : opening = '/' :: '/' :: '#' :: openingTail := rfl

theorem plain_of_all {cs : List Char} (h : cs.all (fun ch => IsPlain ch) = true) :
    ∀ ch ∈ cs, IsPlain ch :=
  fun ch hch => of_decide_eq_true (List.all_eq_true.mp h ch hch)

theorem plain_openingTail : ∀ ch ∈ openingTail, IsPlain ch := plain_of_all (by decide)

theorem plain_writtenParameters : ∀ ch ∈ writtenParameters, IsPlain ch := plain_of_all (by decide)

theorem plain_encode (bytes : List UInt8) : ∀ ch ∈ Base64.encode bytes, IsPlain ch :=
  Base64.forall_mem_encode (by decide) (by decide) bytes

theorem LastLine.not_behind {before line after : List Char}
    (h : LastLine output before line after) (first rest : List Char) :
    after ≠ first ++ opening ++ rest := by
  rintro rfl
  have hlength := h.last (before ++ opening ++ line ++ first)
    ⟨rest, by rw [h.text]; simp only [List.append_assoc]⟩
  have hopening : opening.length = 43 := rfl
  simp only [List.length_append] at hlength
  omega

/-- The only hash of an opening is its third character, so another hash behind it that is not plain
stands behind the line. -/
theorem exists_behind {plain after front rest : List Char} (hplain : ∀ ch ∈ plain, IsPlain ch)
    (h : plain ++ after = front ++ '#' :: rest) :
    ∃ x, front = plain ++ x ∧ after = x ++ '#' :: rest := by
  rcases List.append_eq_append_iff.mp h with ⟨x, hfront, hafter⟩ | ⟨x, hplain', hrest⟩
  · exact ⟨x, hfront, hafter⟩
  · cases x with
    | nil => exact ⟨[], by simpa using hplain'.symm, by simpa using hrest.symm⟩
    | cons ch x =>
      obtain ⟨rfl, -⟩ := List.cons.inj hrest
      exact absurd rfl (hplain '#' (by simp [hplain'])).2

/-- An opening that overlaps an earlier one would need its hash, so it comes behind the line. -/
theorem opening_behind {plain after skipped rest : List Char} (hplain : ∀ ch ∈ plain, IsPlain ch)
    (hline : EndsLine after) (hskipped : skipped ≠ [])
    (h : '/' :: '/' :: '#' :: (plain ++ after) = skipped ++ (opening ++ rest)) :
    ∃ x, after = x ++ opening ++ rest := by
  have hsplit : ['/', '/', '#'] ++ (plain ++ after) =
      (skipped ++ ['/', '/']) ++ '#' :: (openingTail ++ rest) := by
    rw [opening_eq] at h
    simpa using h
  rcases List.append_eq_append_iff.mp hsplit with ⟨front, hfront, hbehind⟩ | ⟨front, hfront, -⟩
  · obtain ⟨x, rfl, hafter⟩ := exists_behind hplain hbehind
    rcases List.eq_nil_or_concat' x with rfl | ⟨x, e, rfl⟩
    · exact absurd (hline '#' _ hafter) (by decide)
    · have hlast : (skipped ++ ['/']) ++ ['/'] = (['/', '/', '#'] ++ (plain ++ x)) ++ [e] := by
        simpa using hfront
      obtain ⟨hfirst, he⟩ := List.append_inj' hlast rfl
      obtain rfl : '/' = e := List.head_eq_of_cons_eq he
      rcases List.eq_nil_or_concat' x with rfl | ⟨x, e, rfl⟩
      · exact absurd (hline '/' _ hafter) (by decide)
      · have hlast : skipped ++ ['/'] = (['/', '/', '#'] ++ (plain ++ x)) ++ [e] := by
          simpa using hfirst
        obtain ⟨-, he⟩ := List.append_inj' hlast rfl
        obtain rfl : '/' = e := List.head_eq_of_cons_eq he
        exact ⟨x, by rw [hafter, opening_eq]; simp⟩
  · have hlength := congrArg List.length hfront
    obtain ⟨ch, skipped, rfl⟩ := List.exists_cons_of_ne_nil hskipped
    obtain ⟨rfl, rfl⟩ : skipped = [] ∧ front = [] := by
      simp only [List.length_append, List.length_cons, List.length_nil] at hlength
      constructor <;> apply List.eq_nil_of_length_eq_zero <;> omega
    simp at hfront

theorem opening_last {middle after : List Char} (hmiddle : ∀ ch ∈ middle, IsPlain ch)
    (hline : EndsLine after) (hafter : ∀ first rest, after ≠ first ++ opening ++ rest)
    (before : List Char) : LastAt (before ++ opening ++ (middle ++ after)) before := by
  rintro first ⟨rest, h⟩
  rw [List.append_assoc, List.append_assoc] at h
  rcases List.append_eq_append_iff.mp h with ⟨skipped, rfl, hskipped⟩ | ⟨more, rfl, -⟩
  · by_cases hnone : skipped = []
    · exact Nat.le_of_eq (by rw [hnone, List.append_nil])
    · have hplain : ∀ ch ∈ openingTail ++ middle, IsPlain ch := by
        intro ch hch
        exact (List.mem_append.mp hch).elim (plain_openingTail ch) (hmiddle ch)
      obtain ⟨x, hx⟩ := opening_behind hplain hline hnone
        (by rw [List.append_assoc, ← hskipped]; rfl)
      exact absurd hx (hafter x rest)
  · rw [List.length_append]
    exact Nat.le_add_right _ _

theorem comment?_written (h : comment? output = some c) (hpayload : ∀ ch ∈ payload, IsPlain ch) :
    comment? (c.before ++ opening ++ writtenParameters ++ payload ++ c.after) =
      some ⟨c.before, payload, c.after⟩ := by
  obtain ⟨parameters, hcut, -⟩ := comment?_eq_some_iff.mp h
  have hmiddle : ∀ ch ∈ writtenParameters ++ payload, IsPlain ch := by
    intro ch hch
    exact (List.mem_append.mp hch).elim (plain_writtenParameters ch) (hpayload ch)
  have hmarker : Text.splitFirst? marker (writtenParameters ++ payload) =
      some ("charset=utf-8;".toList, payload) := rfl
  obtain ⟨hsplit, hfirst⟩ := Text.splitFirst?_eq_some_iff.mp hmarker
  rw [hsplit] at hmiddle hfirst
  refine comment?_eq_some_iff.mpr ⟨_, ⟨?_, ?_, fun ch hch => (hmiddle ch hch).1, hcut.ends⟩, hfirst⟩
  · rw [← hsplit]
    simp only [List.append_assoc]
  · have hlast := opening_last hmiddle hcut.ends hcut.not_behind c.before
    rw [← hsplit] at hlast
    simpa only [List.append_assoc] using hlast

end Rebuild.SourceMap
