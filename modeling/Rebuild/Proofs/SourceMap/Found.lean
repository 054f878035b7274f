import Mathlib.Data.List.TakeWhile
import Rebuild.Proofs.Text.Splitting
import Rebuild.SourceMap.Rewrite

/-!
# Which comment is found

The comment of a text is looked for behind the last opening, and its marker
has to follow on the same line. So a comment that no opening is behind is
found and decoded. A comment with another opening behind it is hidden, even if
no comment follows that opening.
-/

set_option autoImplicit false

namespace Rebuild.SourceMap

variable {output before line after : List Char} {c : Comment}

/-! ## The last opening -/

def OpensAt (output before : List Char) : Prop := ∃ rest, output = before ++ opening ++ rest

def CommentsAt (output before : List Char) : Prop :=
  ∃ parameters rest, output = before ++ opening ++ (parameters ++ marker ++ rest) ∧
    ∀ ch ∈ parameters, isLineEnd ch = false

def LastAt (output before : List Char) : Prop :=
  ∀ later, OpensAt output later → later.length ≤ before.length

def EndsLine (after : List Char) : Prop := ∀ e rest, after = e :: rest → isLineEnd e = true

/-- A text cut around what follows its last opening on the line. -/
structure LastLine (output before line after : List Char) : Prop where
  text : output = before ++ opening ++ (line ++ after)
  last : LastAt output before
  line : ∀ ch ∈ line, isLineEnd ch = false
  ends : EndsLine after

theorem splitLast?_opening_iff {rest : List Char} :
    Text.splitLast? opening output = some (before, rest) ↔
      output = before ++ opening ++ rest ∧ LastAt output before := by
  rw [Text.splitLast?_eq_some_iff]
  refine and_congr_right fun _ => ?_
  constructor
  · rintro hlast later ⟨more, hmore⟩
    exact hlast later more hmore
  · intro hlast first more hmore
    exact hlast first ⟨more, hmore⟩

theorem takeWhile_line (rest : List Char) :
    ∀ ch ∈ rest.takeWhile (fun ch => !isLineEnd ch), isLineEnd ch = false := by
  intro ch hch
  simpa using List.mem_takeWhile_imp hch

theorem endsLine_dropWhile (rest : List Char) :
    EndsLine (rest.dropWhile fun ch => !isLineEnd ch) := by
  intro e later he
  have hhead := List.head?_dropWhile_not (fun ch => !isLineEnd ch) rest
  rw [he] at hhead
  simpa using hhead

theorem cut_line (hline : ∀ ch ∈ line, isLineEnd ch = false) (hafter : EndsLine after) :
    (line ++ after).takeWhile (fun ch => !isLineEnd ch) = line ∧
      (line ++ after).dropWhile (fun ch => !isLineEnd ch) = after := by
  apply Text.span_append
  · intro ch hch
    rw [hline ch hch]
    rfl
  · intro e rest he
    rw [hafter e rest he]
    rfl

/-- The comment that is found stands behind the last opening, and its payload starts behind the
first marker on the line. -/
theorem comment?_eq_some_iff : comment? output = some c ↔
    ∃ parameters, LastLine output c.before (parameters ++ marker ++ c.payload) c.after ∧
      ∀ first rest, parameters ++ marker ++ c.payload = first ++ marker ++ rest →
        parameters.length ≤ first.length := by
  constructor
  · intro h
    obtain ⟨⟨before, rest⟩, hsplit, hc⟩ := Option.bind_eq_some_iff.mp h
    obtain ⟨⟨parameters, payload⟩, hmarker, rfl⟩ := Option.map_eq_some_iff.mp hc
    obtain ⟨houtput, hlast⟩ := splitLast?_opening_iff.mp hsplit
    obtain ⟨hline, hfirst⟩ := Text.splitFirst?_eq_some_iff.mp hmarker
    refine ⟨parameters, ?_, ?_⟩
    · dsimp only
      rw [← hline]
      exact ⟨by rw [List.takeWhile_append_dropWhile]; exact houtput, hlast, takeWhile_line rest,
        endsLine_dropWhile rest⟩
    · dsimp only
      rw [← hline]
      exact hfirst
  · rintro ⟨parameters, ⟨htext, hlast, hline, hends⟩, hfirst⟩
    have hsplit := splitLast?_opening_iff.mpr ⟨htext, hlast⟩
    have hmarker := Text.splitFirst?_eq_some_iff.mpr ⟨rfl, hfirst⟩
    obtain ⟨htake, hdrop⟩ := cut_line hline hends
    rw [comment?, hsplit, Option.bind_some]
    dsimp only
    rw [htake, hdrop, hmarker]
    rfl

/-! ## Comments that are hidden -/

theorem commentsAt_of_comment? (h : comment? output = some c) :
    CommentsAt output c.before ∧ LastAt output c.before := by
  obtain ⟨parameters, hcut, -⟩ := comment?_eq_some_iff.mp h
  refine ⟨⟨parameters, c.payload ++ c.after, ?_, fun ch hch => hcut.line ch ?_⟩, hcut.last⟩
  · rw [hcut.text]
    simp only [List.append_assoc]
  · simp [hch]

theorem marker_line : ∀ ch ∈ marker, isLineEnd ch = false := by
  have hmarker : marker.all (fun ch => !isLineEnd ch) = true := by decide
  intro ch hch
  simpa using List.all_eq_true.mp hmarker ch hch

theorem CommentsAt.exists_line (h : CommentsAt output before) :
    ∃ parameters line after,
      output = before ++ opening ++ (parameters ++ marker ++ line ++ after) ∧
      (∀ ch ∈ parameters ++ marker ++ line, isLineEnd ch = false) ∧ EndsLine after := by
  obtain ⟨parameters, rest, houtput, hparameters⟩ := h
  refine ⟨parameters, rest.takeWhile fun ch => !isLineEnd ch, _, ?_, ?_, endsLine_dropWhile rest⟩
  · rw [List.append_assoc _ _ (rest.dropWhile _), List.takeWhile_append_dropWhile]
    exact houtput
  · intro ch hch
    rcases List.mem_append.mp hch with hch | hch
    · exact (List.mem_append.mp hch).elim (hparameters ch) (marker_line ch)
    · exact takeWhile_line rest ch hch

theorem CommentsAt.found (h : CommentsAt output before) (hlast : LastAt output before) :
    ∃ payload after, comment? output = some ⟨before, payload, after⟩ := by
  obtain ⟨parameters, line, after, houtput, hline, hends⟩ := h.exists_line
  -- The payload stands behind the first marker of the line, which may come before this one.
  have hknown : parameters ++ marker ++ line = parameters ++ marker ++ line := rfl
  obtain ⟨first, payload, hfirst, -⟩ := Text.exists_splitFirst? hknown
  obtain ⟨hsplit, hleast⟩ := Text.splitFirst?_eq_some_iff.mp hfirst
  rw [hsplit] at houtput hline hleast
  exact ⟨payload, after, comment?_eq_some_iff.mpr ⟨first, ⟨houtput, hlast, hline, hends⟩, hleast⟩⟩

theorem comment?_eq_none_iff :
    comment? output = none ↔ ∀ before, CommentsAt output before → ¬LastAt output before := by
  constructor
  · intro hnone before hcomment hlast
    obtain ⟨payload, after, hfound⟩ := hcomment.found hlast
    rw [hfound] at hnone
    cases hnone
  · intro hhidden
    cases hfound : comment? output with
    | none => rfl
    | some c =>
      obtain ⟨hcomment, hlast⟩ := commentsAt_of_comment? hfound
      exact absurd hlast (hhidden _ hcomment)

theorem decode_ne_missing (payload : List Char) : decode payload ≠ .error .missingComment := by
  rw [decode]
  split
  · simp
  · split <;> simp

theorem rewrite_of_comment? {output : String} (h : comment? output.toList = some c)
    (source : Path) :
    rewrite output source = (decode c.payload).map fun members =>
      write c (withSource members source) := by
  rw [rewrite, h]
  dsimp only
  cases decode c.payload <;> rfl

theorem rewrite_eq_missing_iff (output : String) (source : Path) :
    rewrite output source = .error .missingComment ↔ comment? output.toList = none := by
  constructor
  · intro hmissing
    cases hfound : comment? output.toList with
    | none => rfl
    | some c =>
      rw [rewrite_of_comment? hfound] at hmissing
      cases hdecode : decode c.payload with
      | error e =>
        rw [hdecode] at hmissing
        cases hmissing
        exact absurd hdecode (decode_ne_missing _)
      | ok members =>
        rw [hdecode] at hmissing
        cases hmissing
  · intro hnone
    rw [rewrite, hnone]

/-- A text is said to have no comment exactly if each of its comments has another opening behind
it. A comment that has none behind it is the last one, and it is decoded: its payload starts behind
the first marker on its line and goes on to the end of the line. -/
theorem missing_iff_hidden (output : String) (source : Path) :
    (rewrite output source = .error .missingComment ↔
      ∀ before, CommentsAt output.toList before → ¬LastAt output.toList before) ∧
    ∀ before, CommentsAt output.toList before → LastAt output.toList before →
      ∃ parameters payload after,
        LastLine output.toList before (parameters ++ marker ++ payload) after ∧
        (∀ first rest, parameters ++ marker ++ payload = first ++ marker ++ rest →
          parameters.length ≤ first.length) ∧
        rewrite output source = (decode payload).map fun members =>
          write ⟨before, payload, after⟩ (withSource members source) := by
  refine ⟨(rewrite_eq_missing_iff output source).trans comment?_eq_none_iff, ?_⟩
  intro before hcomment hlast
  obtain ⟨payload, after, hfound⟩ := hcomment.found hlast
  obtain ⟨parameters, hcut, hfirst⟩ := comment?_eq_some_iff.mp hfound
  exact ⟨parameters, payload, after, hcut, hfirst, rewrite_of_comment? hfound source⟩

theorem missing_iff_hidden_shown :
    let output := "//# sourceMappingURL=data:application/json;base64,e30="
    CommentsAt output.toList [] ∧ LastAt output.toList [] ∧
      rewrite output ⟨"a.ts"⟩ ≠ .error .missingComment := by
  intro output
  have hfound : (comment? output.toList).map Comment.before = some [] := by decide +kernel
  obtain ⟨c, hc, hbefore⟩ := Option.map_eq_some_iff.mp hfound
  obtain ⟨hcomment, hlast⟩ := commentsAt_of_comment? hc
  rw [hbefore] at hcomment hlast
  exact ⟨hcomment, hlast,
    fun hmissing => (missing_iff_hidden output ⟨"a.ts"⟩).1.mp hmissing _ hcomment hlast⟩

/-- A comment with the opening of a map behind it that is written in another way. -/
theorem hidden_comment :
    let output := "x\n//# sourceMappingURL=data:application/json;base64,e30=\n" ++
      "//# sourceMappingURL=data:application/json;charset=utf-8,e30"
    CommentsAt output.toList "x\n".toList ∧ rewrite output ⟨"a.ts"⟩ = .error .missingComment := by
  intro output
  have hcomment : CommentsAt output.toList "x\n".toList :=
    ⟨[], "e30=\n//# sourceMappingURL=data:application/json;charset=utf-8,e30".toList,
      by decide +kernel, by simp⟩
  exact ⟨hcomment, by decide +kernel⟩

end Rebuild.SourceMap
