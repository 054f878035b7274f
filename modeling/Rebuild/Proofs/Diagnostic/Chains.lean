import Rebuild.Diagnostic.Message
import Rebuild.Proofs.Text.Splitting

/-!
# Chains as lines

A flattened chain is the list of its links in pre-order, one line each, with
the depth of a link as the indent of its line. The depths alone tell where the
explanations of a link end: a chain goes on as long as the lines are deeper
than its first one. So a chain is read back from its lines, and if no text
breaks its line or begins with a blank, from the flattened text.
-/

set_option autoImplicit false

namespace Rebuild.MessageChain

/-! ## Lines -/

mutual

def outline (depth : Nat) : MessageChain → List (Nat × String)
  | .link text next => (depth, text) :: outlineAll (depth + 1) next

def outlineAll (depth : Nat) : List MessageChain → List (Nat × String)
  | [] => []
  | chain :: rest => outline depth chain ++ outlineAll depth rest

end

def line (link : Nat × String) : String := indent link.1 ++ link.2

variable {separator : String} {depth : Nat}

mutual

theorem renderOnto_intercalate (written : List String) (h : written ≠ []) (depth : Nat) :
    ∀ chain : MessageChain,
      renderOnto separator (depth + 1) (separator.intercalate written) chain =
        separator.intercalate (written ++ (outline (depth + 1) chain).map line)
  | .link text next => by
    have hline : separator.intercalate written ++ opening separator (depth + 1) ++ text =
        separator.intercalate (written ++ [line (depth + 1, text)]) := by
      rw [String.intercalate_append_of_ne_nil h (List.cons_ne_nil _ _),
        String.intercalate_singleton, opening, if_neg (Nat.succ_ne_zero depth), line]
      simp only [String.append_assoc]
    rw [renderOnto, hline,
      renderAllOnto_intercalate (written ++ [line (depth + 1, text)]) (by simp) (depth + 1) next,
      outline, List.map_cons, List.append_assoc, List.singleton_append]

theorem renderAllOnto_intercalate (written : List String) (h : written ≠ []) (depth : Nat) :
    ∀ chains : List MessageChain,
      renderAllOnto separator (depth + 1) (separator.intercalate written) chains =
        separator.intercalate (written ++ (outlineAll (depth + 1) chains).map line)
  | [] => by rw [renderAllOnto, outlineAll, List.map_nil, List.append_nil]
  | chain :: rest => by
    rw [renderAllOnto, renderOnto_intercalate written h depth chain,
      renderAllOnto_intercalate _ (by simp [h]) depth rest, outlineAll, List.map_append,
      List.append_assoc]

end

theorem flatten_lines (separator : String) (c : MessageChain) :
    Message.flatten separator (.chain c) = separator.intercalate ((c.outline 0).map line) := by
  obtain ⟨text, next⟩ := c
  have hfirst : "" ++ opening separator 0 ++ text = separator.intercalate [line (0, text)] := by
    rw [String.intercalate_singleton]
    rfl
  rw [Message.flatten, renderOnto, hfirst,
    renderAllOnto_intercalate _ (List.cons_ne_nil _ _) 0 next, outline, List.map_cons]
  rfl

/-! ## Chains from their depths -/

/-- What comes next is no deeper. -/
def EndsAbove (depth : Nat) (rest : List (Nat × String)) : Prop := ∀ l ∈ rest.head?, l.1 ≤ depth

theorem EndsAbove.outlineAll {rest : List (Nat × String)} (h : EndsAbove depth rest)
    (chains : List MessageChain) :
    EndsAbove (depth + 1) (outlineAll (depth + 1) chains ++ rest) := by
  cases chains with
  | nil =>
    intro l hl
    exact Nat.le_succ_of_le (h l hl)
  | cons chain chains =>
    obtain ⟨text, next⟩ := chain
    intro l hl
    rw [MessageChain.outlineAll, outline, List.cons_append, List.cons_append, List.head?_cons,
      Option.mem_some_iff] at hl
    subst hl
    exact Nat.le_refl _

theorem not_outlineAll_cons {rest : List (Nat × String)} (h : EndsAbove depth rest)
    (chain : MessageChain) (back : List (Nat × String)) :
    rest ≠ outline (depth + 1) chain ++ back := by
  obtain ⟨text, next⟩ := chain
  rintro rfl
  have hdepth := h (depth + 1, text) rfl
  exact Nat.not_succ_le_self depth hdepth

mutual

/-- A chain is all that follows its first line and is deeper. -/
theorem outline_cancel (depth : Nat) : ∀ (c d : MessageChain) {rest rest' : List (Nat × String)},
    EndsAbove depth rest → EndsAbove depth rest' →
    outline depth c ++ rest = outline depth d ++ rest' → c = d ∧ rest = rest'
  | .link text next, .link text' next', rest, rest', hrest, hrest', h => by
    rw [outline, outline, List.cons_append, List.cons_append, List.cons.injEq, Prod.mk.injEq] at h
    obtain ⟨⟨-, rfl⟩, hnext⟩ := h
    obtain ⟨rfl, hend⟩ := outlineAll_cancel depth next next' hrest hrest' hnext
    exact ⟨rfl, hend⟩

theorem outlineAll_cancel (depth : Nat) :
    ∀ (cs ds : List MessageChain) {rest rest' : List (Nat × String)},
    EndsAbove depth rest → EndsAbove depth rest' →
    outlineAll (depth + 1) cs ++ rest = outlineAll (depth + 1) ds ++ rest' → cs = ds ∧ rest = rest'
  | [], [], _, _, _, _, h => ⟨rfl, h⟩
  | [], d :: ds, _, _, hrest, _, h => by
    rw [outlineAll, outlineAll, List.append_assoc] at h
    exact absurd h (not_outlineAll_cons hrest d _)
  | c :: cs, [], _, _, _, hrest', h => by
    rw [outlineAll, outlineAll, List.append_assoc] at h
    exact absurd h.symm (not_outlineAll_cons hrest' c _)
  | c :: cs, d :: ds, _, _, hrest, hrest', h => by
    rw [outlineAll, outlineAll, List.append_assoc, List.append_assoc] at h
    obtain ⟨rfl, hmore⟩ :=
      outline_cancel (depth + 1) c d (hrest.outlineAll cs) (hrest'.outlineAll ds) h
    obtain ⟨rfl, hend⟩ := outlineAll_cancel depth cs ds hrest hrest' hmore
    exact ⟨rfl, hend⟩

end

theorem outline_injective {c d : MessageChain} (h : c.outline 0 = d.outline 0) : c = d := by
  have hends : EndsAbove 0 [] := fun l hl => by cases hl
  exact (outline_cancel 0 c d hends hends (by rw [h])).1

/-! ## Lines from their text -/

def readLine (chars : List Char) : Nat × String :=
  ((chars.takeWhile (· = ' ')).length / 2, String.ofList (chars.dropWhile (· = ' ')))

def Lined (text : String) : Prop := '\n' ∉ text.toList ∧ text.toList.head? ≠ some ' '

theorem toList_line (link : Nat × String) :
    (line link).toList = List.replicate (2 * link.1) ' ' ++ link.2.toList := by
  rw [line, indent, String.toList_append, String.toList_ofList]

theorem readLine_line {link : Nat × String} (h : Lined link.2) :
    readLine (line link).toList = link := by
  have hblanks : ∀ c ∈ List.replicate (2 * link.1) ' ', decide (c = ' ') = true := by
    intro c hc
    exact decide_eq_true (List.eq_of_mem_replicate hc)
  have htext : ∀ c rest, link.2.toList = c :: rest → decide (c = ' ') = false := by
    intro c rest hcons
    apply decide_eq_false
    rintro rfl
    exact h.2 (by rw [hcons, List.head?_cons])
  obtain ⟨hindent, hrest⟩ := Text.span_append hblanks htext
  rw [readLine, toList_line, hindent, hrest, List.length_replicate,
    Nat.mul_div_cancel_left _ (by decide), String.ofList_toList]

theorem newline_not_mem_line {link : Nat × String} (h : Lined link.2) :
    '\n' ∉ (line link).toList := by
  rw [toList_line, List.mem_append]
  rintro (hblank | htext)
  · exact absurd (List.eq_of_mem_replicate hblank) (by decide)
  · exact h.1 htext

def Legible (c : MessageChain) : Prop := ∀ link ∈ c.outline 0, Lined link.2

theorem Legible.splitOn_flatten {c : MessageChain} (h : c.Legible) :
    ((Message.flatten "\n" (.chain c)).toList.splitOn '\n').map readLine = c.outline 0 := by
  have hnewline : ∀ chars ∈ ((c.outline 0).map line).map String.toList, '\n' ∉ chars := by
    intro chars hchars
    rw [List.map_map] at hchars
    obtain ⟨link, hlink, rfl⟩ := List.mem_map.mp hchars
    exact newline_not_mem_line (h link hlink)
  have hne : ((c.outline 0).map line).map String.toList ≠ [] := by
    obtain ⟨text, next⟩ := c
    rw [outline]
    exact List.cons_ne_nil _ _
  have hseparator : "\n".toList = ['\n'] := rfl
  rw [flatten_lines, String.toList_intercalate, hseparator,
    List.splitOn_intercalate _ hnewline hne, List.map_map, List.map_map]
  calc (c.outline 0).map (readLine ∘ String.toList ∘ line) = (c.outline 0).map id :=
        List.map_congr_left fun link hlink => readLine_line (h link hlink)
    _ = c.outline 0 := List.map_id _

/-- A flattened chain is one line for each link in pre-order, behind two blanks for each level,
with the separator between them. If no text holds a newline or begins with a blank, chains that
are flattened to one text are equal: their texts, their nesting and their order are read back. -/
theorem flatten_chain :
    (∀ (separator : String) (c : MessageChain), Message.flatten separator (.chain c) =
      separator.intercalate ((c.outline 0).map fun link =>
        String.ofList (List.replicate (2 * link.1) ' ') ++ link.2)) ∧
    ∀ c d : MessageChain, c.Legible → d.Legible →
      (Message.flatten "\n" (.chain c) = Message.flatten "\n" (.chain d) ↔ c = d) := by
  refine ⟨flatten_lines, fun c d hc hd => ⟨fun h => ?_, fun h => by rw [h]⟩⟩
  apply outline_injective
  calc c.outline 0 = ((Message.flatten "\n" (.chain c)).toList.splitOn '\n').map readLine :=
        hc.splitOn_flatten.symm
    _ = ((Message.flatten "\n" (.chain d)).toList.splitOn '\n').map readLine := by rw [h]
    _ = d.outline 0 := hd.splitOn_flatten

theorem flatten_chain_nested :
    let c : MessageChain := .link "a" [.link "b" [.link "" []], .link "c" []]
    let d : MessageChain := .link "a" [.link "b" [.link "" [.link "c" []]]]
    c.Legible ∧ d.Legible ∧ Message.flatten "\n" (.chain c) = "a\n  b\n    \n  c" ∧
      Message.flatten "\n" (.chain c) ≠ Message.flatten "\n" (.chain d) := by
  intro c d
  have hc : c.Legible := by simp [c, Legible, outline, outlineAll, Lined]
  have hd : d.Legible := by simp [d, Legible, outline, outlineAll, Lined]
  have hne : c ≠ d := by simp [c, d]
  obtain ⟨hlines, hiff⟩ := flatten_chain
  refine ⟨hc, hd, ?_, mt (hiff c d hc hd).mp hne⟩
  rw [hlines]
  decide

end Rebuild.MessageChain
