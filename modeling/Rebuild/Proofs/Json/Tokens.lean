import Rebuild.Proofs.Json.Grammar

/-!
# Tokens of a text

A text is cut into the tokens that it spells, and into no others. What may
follow a position of the lexer is what the grammar has behind it, and each
step of the lexer takes one character off that.
-/

set_option autoImplicit false

namespace Rebuild.Json

open Lexer

variable {c : Char} {t : Token} {cs rest w : List Char} {ts : List Token} {s : List TextUnit}

/-! ## Characters outside of strings -/

theorem mem_of_punctuation (h : Token.ofPunctuation? c = some t) :
    c ∈ ['[', ']', '\x7b', '\x7d', ',', ':'] := by
  rw [Token.ofPunctuation?] at h
  simp only [List.mem_cons, List.not_mem_nil, or_false]
  apply Decidable.byContradiction
  intro hnone
  simp only [not_or] at hnone
  simp [hnone] at h

theorem mem_of_blank (h : isBlank c = true) : c ∈ [' ', '\t', '\n', '\r'] := by
  simpa only [isBlank, Bool.or_eq_true, beq_iff_eq, List.mem_cons, List.not_mem_nil, or_false,
    or_assoc] using h

theorem endsWord_iff :
    endsWord c = true ↔ isBlank c = true ∨ c = '"' ∨ ∃ t, Token.ofPunctuation? c = some t := by
  rw [endsWord, Bool.or_eq_true, Bool.or_eq_true, beq_iff_eq, Option.isSome_iff_exists, or_assoc]

theorem mem_of_endsWord (h : endsWord c = true) :
    c ∈ [' ', '\t', '\n', '\r', '"', '[', ']', '\x7b', '\x7d', ',', ':'] := by
  rcases endsWord_iff.mp h with hblank | rfl | ⟨t, ht⟩
  · exact List.mem_append_left ['"', '[', ']', '\x7b', '\x7d', ',', ':'] (mem_of_blank hblank)
  · decide
  · exact List.mem_append_right [' ', '\t', '\n', '\r', '"'] (mem_of_punctuation ht)

theorem endsWord_wordChar (h : Number.IsWordChar c) : endsWord c = false := by
  rw [← Bool.not_eq_true]
  intro hends
  have hmem := mem_of_endsWord hends
  simp only [List.mem_cons, List.not_mem_nil, or_false] at hmem
  rcases hmem with rfl | rfl | rfl | rfl | rfl | rfl | rfl | rfl | rfl | rfl | rfl <;>
    exact absurd h (by decide)

theorem SpellsWord.inside (h : SpellsWord w t) : w ≠ [] ∧ ∀ c ∈ w, endsWord c = false := by
  have hliteral {w : List Char} (hall : w.all (fun c => !endsWord c) = true) :
      ∀ c ∈ w, endsWord c = false := fun c hc => by simpa using List.all_eq_true.mp hall c hc
  cases h with
  | null | yes | no => exact ⟨List.cons_ne_nil _ _, hliteral rfl⟩
  | number h => exact h.wordChars.imp_right fun hw c hc => endsWord_wordChar (hw c hc)

/-! ## What follows a position -/

def InText (s : List TextUnit) (cs : List Char) (ts : List Token) : Prop :=
  ∃ rest units more, SpellsText rest cs units ∧ SpellsTokens rest more ∧
    ts = .text (s.reverseAux units) :: more

def InWord (w cs : List Char) (ts : List Token) : Prop :=
  ∃ a rest t more, cs = a ++ rest ∧ SpellsWord (w.reverseAux a) t ∧ Ended rest ∧
    SpellsTokens rest more ∧ ts = t :: more

def Follows : Position → List Char → List Token → Prop
  | .gap, cs, ts => SpellsTokens cs ts
  | .word w, cs, ts => InWord w cs ts
  | .text s, cs, ts => InText s cs ts
  | .escape s, cs, ts => InText s ('\\' :: cs) ts
  | .unit s digits, cs, ts => digits.length < 4 ∧ InText s ('\\' :: 'u' :: (digits ++ cs)) ts

/-- With these characters the text comes to these tokens. -/
def Lexer.Reads (l : Lexer) (cs : List Char) (ts : List Token) : Prop :=
  ∃ more, Follows l.position cs more ∧ ts = l.backward.reverseAux more

/-! ## Between tokens -/

theorem spellsTokens_cons : SpellsTokens (c :: cs) ts ↔
    (isBlank c = true ∧ SpellsTokens cs ts) ∨ (c = '"' ∧ InText [] cs ts) ∨
      (∃ t, Token.ofPunctuation? c = some t ∧ ∃ more, SpellsTokens cs more ∧ ts = t :: more) ∨
      (endsWord c = false ∧ InWord [c] cs ts) := by
  constructor
  · intro h
    generalize hall : c :: cs = all at h
    cases h with
    | nil => cases hall
    | blank hc h =>
      cases hall
      exact Or.inl ⟨hc, h⟩
    | text htext h =>
      cases hall
      exact Or.inr (Or.inl ⟨rfl, _, _, _, htext, h, rfl⟩)
    | punctuation ht h =>
      cases hall
      exact Or.inr (Or.inr (Or.inl ⟨_, ht, _, h, rfl⟩))
    | word hw hended h =>
      obtain ⟨hne, hinside⟩ := hw.inside
      obtain ⟨d, w, rfl⟩ := List.exists_cons_of_ne_nil hne
      cases hall
      have hd := hinside c (List.mem_cons_self ..)
      exact Or.inr (Or.inr (Or.inr ⟨hd, _, _, _, _, rfl, hw, hended, h, rfl⟩))
  · rintro (⟨hc, h⟩ | ⟨rfl, rest, units, more, htext, h, rfl⟩ | ⟨t, ht, more, h, rfl⟩ |
      ⟨-, a, rest, t, more, rfl, hw, hended, h, rfl⟩)
    · exact .blank hc h
    · exact .text htext h
    · exact .punctuation ht h
    · exact .word hw hended h

theorem spellsTokens_nil : SpellsTokens [] ts ↔ ts = [] := by
  constructor
  · intro h
    generalize hall : [] = all at h
    cases h with
    | nil => rfl
    | blank | text | punctuation => cases hall
    | word hw => exact absurd (List.append_eq_nil_iff.mp hall.symm).1 hw.inside.1
  · rintro rfl
    exact .nil

theorem spellsTokens_blank (hc : isBlank c = true) :
    SpellsTokens (c :: cs) ts ↔ SpellsTokens cs ts := by
  have hplain : c ≠ '"' ∧ Token.ofPunctuation? c = none := by
    have hmem := mem_of_blank hc
    simp only [List.mem_cons, List.not_mem_nil, or_false] at hmem
    rcases hmem with rfl | rfl | rfl | rfl <;> decide
  simp [spellsTokens_cons, hc, hplain, endsWord_iff.mpr (Or.inl hc)]

theorem spellsTokens_quote : SpellsTokens ('"' :: cs) ts ↔ InText [] cs ts := by
  have hblank : isBlank '"' = false := rfl
  have hnone : Token.ofPunctuation? '"' = none := rfl
  have hends : endsWord '"' = true := rfl
  simp [spellsTokens_cons, hblank, hnone, hends]

theorem spellsTokens_punctuation (hc : Token.ofPunctuation? c = some t) :
    SpellsTokens (c :: cs) ts ↔ ∃ more, SpellsTokens cs more ∧ ts = t :: more := by
  have hplain : isBlank c = false ∧ c ≠ '"' := by
    have hmem := mem_of_punctuation hc
    simp only [List.mem_cons, List.not_mem_nil, or_false] at hmem
    rcases hmem with rfl | rfl | rfl | rfl | rfl | rfl <;> decide
  simp [spellsTokens_cons, hc, hplain, endsWord_iff.mpr (Or.inr (Or.inr ⟨t, hc⟩))]

theorem spellsTokens_word (hblank : ¬isBlank c = true) (hquote : c ≠ '"')
    (hnone : Token.ofPunctuation? c = none) :
    SpellsTokens (c :: cs) ts ↔ InWord [c] cs ts := by
  have hends : endsWord c = false := by
    rw [← Bool.not_eq_true, endsWord_iff]
    simp [hblank, hquote, hnone]
  simp [spellsTokens_cons, hblank, hquote, hnone, hends]

theorem reads_outside (b : List Token) :
    (outside b c).Reads cs ts ↔ ∃ more, SpellsTokens (c :: cs) more ∧ ts = b.reverseAux more := by
  rw [outside]
  split
  · rename_i hblank
    simp only [Reads, Follows, spellsTokens_blank hblank]
  · rename_i hblank
    split
    · rename_i hquote
      subst hquote
      simp only [Reads, Follows, spellsTokens_quote]
    · rename_i hquote
      split
      · rename_i t ht
        simp only [spellsTokens_punctuation ht]
        constructor
        · rintro ⟨more, h, rfl⟩
          exact ⟨t :: more, ⟨more, h, rfl⟩, rfl⟩
        · rintro ⟨_, ⟨more, h, rfl⟩, rfl⟩
          exact ⟨more, h, rfl⟩
      · rename_i hnone
        simp only [Reads, Follows, spellsTokens_word hblank hquote hnone]

/-! ## Inside of words -/

theorem inWord_ended (hc : endsWord c = true) : InWord w (c :: cs) ts ↔
    ∃ t, SpellsWord w.reverse t ∧ ∃ more, SpellsTokens (c :: cs) more ∧ ts = t :: more := by
  constructor
  · rintro ⟨a, rest, t, more, hcut, hw, -, h, rfl⟩
    cases a with
    | nil =>
      cases hcut
      exact ⟨t, hw, more, h, rfl⟩
    | cons d a =>
      cases hcut
      have hinside := hw.inside.2 c (by
        rw [List.reverseAux_eq]
        exact List.mem_append_right _ (List.mem_cons_self ..))
      rw [hc] at hinside
      cases hinside
  · rintro ⟨t, hw, more, h, rfl⟩
    refine ⟨[], c :: cs, t, more, rfl, hw, ?_, h, rfl⟩
    rintro _ _ ⟨⟩
    exact hc

theorem inWord_inside (hc : endsWord c = false) :
    InWord w (c :: cs) ts ↔ InWord (c :: w) cs ts := by
  constructor
  · rintro ⟨a, rest, t, more, hcut, hw, hended, h, rfl⟩
    cases a with
    | nil =>
      have hends := hended c cs hcut.symm
      rw [hc] at hends
      cases hends
    | cons d a =>
      cases hcut
      exact ⟨a, rest, t, more, rfl, hw, hended, h, rfl⟩
  · rintro ⟨a, rest, t, more, rfl, hw, hended, h, rfl⟩
    exact ⟨c :: a, rest, t, more, rfl, hw, hended, h, rfl⟩

theorem inWord_nil : InWord w [] ts ↔ ∃ t, SpellsWord w.reverse t ∧ ts = [t] := by
  constructor
  · rintro ⟨a, rest, t, more, hcut, hw, -, h, rfl⟩
    obtain ⟨rfl, rfl⟩ := List.append_eq_nil_iff.mp hcut.symm
    exact ⟨t, hw, by rw [spellsTokens_nil.mp h]⟩
  · rintro ⟨t, hw, rfl⟩
    exact ⟨[], [], t, [], rfl, hw, nofun, .nil, rfl⟩

/-! ## Inside of strings -/

theorem inText_quote :
    InText s ('"' :: cs) ts ↔ ∃ more, SpellsTokens cs more ∧ ts = .text s.reverse :: more := by
  constructor
  · rintro ⟨rest, units, more, htext, h, rfl⟩
    cases htext with
    | close => exact ⟨more, h, rfl⟩
    | char hquote => exact absurd rfl hquote
  · rintro ⟨more, h, rfl⟩
    exact ⟨cs, [], more, .close, h, rfl⟩

theorem inText_char (hquote : c ≠ '"') (hbackslash : c ≠ '\\') :
    InText s (c :: cs) ts ↔ 0x20 ≤ c.toNat ∧ InText (.char c :: s) cs ts := by
  constructor
  · rintro ⟨rest, units, more, htext, h, rfl⟩
    cases htext with
    | close => exact absurd rfl hquote
    | char _ _ hplain htext => exact ⟨hplain, rest, _, more, htext, h, rfl⟩
    | escape | unit => exact absurd rfl hbackslash
  · rintro ⟨hplain, rest, units, more, htext, h, rfl⟩
    exact ⟨rest, _, more, .char hquote hbackslash hplain htext, h, rfl⟩

theorem inText_escape (hc : c ≠ 'u') : InText s ('\\' :: c :: cs) ts ↔
    ∃ e, escaped? c = some e ∧ InText (.char e :: s) cs ts := by
  constructor
  · rintro ⟨rest, units, more, htext, h, rfl⟩
    cases htext with
    | char _ hbackslash => exact absurd rfl hbackslash
    | escape he htext => exact ⟨_, he, rest, _, more, htext, h, rfl⟩
    | unit => exact absurd rfl hc
  · rintro ⟨e, he, rest, units, more, htext, h, rfl⟩
    exact ⟨rest, _, more, .escape he htext, h, rfl⟩

theorem inText_unit {x y z w : Char} : InText s ('\\' :: 'u' :: x :: y :: z :: w :: cs) ts ↔
    ∃ n, hexNumber? [x, y, z, w] = some n ∧ InText (.ofNat n :: s) cs ts := by
  constructor
  · rintro ⟨rest, units, more, htext, h, rfl⟩
    cases htext with
    | char _ hbackslash => exact absurd rfl hbackslash
    | escape he => cases he
    | unit hn htext => exact ⟨_, hn, rest, _, more, htext, h, rfl⟩
  · rintro ⟨n, hn, rest, units, more, htext, h, rfl⟩
    exact ⟨rest, _, more, .unit hn htext, h, rfl⟩

theorem not_inText_nil : ¬InText s [] ts := by
  rintro ⟨_, _, _, htext, -⟩
  cases htext

theorem not_inText_escape : ¬InText s ['\\'] ts := by
  rintro ⟨_, _, _, htext, -⟩
  cases htext with
  | char _ hbackslash => exact hbackslash rfl

theorem not_inText_unit {digits : List Char} (h : digits.length < 4) :
    ¬InText s ('\\' :: 'u' :: digits) ts := by
  rintro ⟨_, _, _, htext, -⟩
  cases htext with
  | char _ hbackslash => exact hbackslash rfl
  | escape he => cases he
  | unit =>
    simp only [List.length_cons] at h
    omega

/-! ## Steps and runs -/

theorem reads_word (b : List Token) : Reads ⟨.word w, b⟩ (c :: cs) ts ↔
    ∃ next, step ⟨.word w, b⟩ c = some next ∧ next.Reads cs ts := by
  simp only [step]
  split
  · rename_i hc
    simp only [Option.map_eq_some_iff, ofWord?_eq_some_iff]
    constructor
    · rintro ⟨_, hin, rfl⟩
      obtain ⟨t, hw, more, h, rfl⟩ := (inWord_ended hc).mp hin
      exact ⟨_, ⟨t, hw, rfl⟩, (reads_outside _).mpr ⟨more, h, rfl⟩⟩
    · rintro ⟨_, ⟨t, hw, rfl⟩, hreads⟩
      obtain ⟨more, h, rfl⟩ := (reads_outside _).mp hreads
      exact ⟨_, (inWord_ended hc).mpr ⟨t, hw, more, h, rfl⟩, rfl⟩
  · rename_i hc
    rw [Bool.not_eq_true] at hc
    simp only [Option.some.injEq, exists_eq_left', Reads, Follows, inWord_inside hc]

theorem reads_text (b : List Token) : Reads ⟨.text s, b⟩ (c :: cs) ts ↔
    ∃ next, step ⟨.text s, b⟩ c = some next ∧ next.Reads cs ts := by
  simp only [step]
  split
  · rename_i hquote
    subst hquote
    simp only [Option.some.injEq, exists_eq_left', Reads, Follows, inText_quote]
    constructor
    · rintro ⟨_, ⟨more, h, rfl⟩, rfl⟩
      exact ⟨more, h, rfl⟩
    · rintro ⟨more, h, rfl⟩
      exact ⟨_, ⟨more, h, rfl⟩, rfl⟩
  · rename_i hquote
    split
    · rename_i hbackslash
      subst hbackslash
      simp only [Option.some.injEq, exists_eq_left', Reads, Follows]
    · rename_i hbackslash
      simp only [Reads, Follows, inText_char hquote hbackslash]
      split
      · rename_i hcontrol
        simp [Nat.not_le.mpr hcontrol]
      · rename_i hplain
        simp [Nat.le_of_not_lt hplain]

theorem reads_escape (b : List Token) : Reads ⟨.escape s, b⟩ (c :: cs) ts ↔
    ∃ next, step ⟨.escape s, b⟩ c = some next ∧ next.Reads cs ts := by
  simp only [step]
  split
  · rename_i hc
    subst hc
    simp [Reads, Follows]
  · rename_i hc
    simp only [Option.map_eq_some_iff, Reads, Follows, inText_escape hc]
    constructor
    · rintro ⟨more, ⟨e, he, h⟩, rfl⟩
      exact ⟨_, ⟨e, he, rfl⟩, more, h, rfl⟩
    · rintro ⟨_, ⟨e, he, rfl⟩, more, h, rfl⟩
      exact ⟨more, ⟨e, he, h⟩, rfl⟩

theorem reads_unit (b : List Token) (digits : List Char) :
    Reads ⟨.unit s digits, b⟩ (c :: cs) ts ↔
      ∃ next, step ⟨.unit s digits, b⟩ c = some next ∧ next.Reads cs ts := by
  by_cases hlast : ∃ x y z, digits = [x, y, z]
  · obtain ⟨x, y, z, rfl⟩ := hlast
    have hless : [x, y, z].length < 4 := Nat.lt_succ_self 3
    simp only [step, unit, Option.map_eq_some_iff, Reads, Follows, List.cons_append,
      List.nil_append, inText_unit, hless, true_and]
    constructor
    · rintro ⟨more, ⟨n, hn, h⟩, rfl⟩
      exact ⟨_, ⟨n, hn, rfl⟩, more, h, rfl⟩
    · rintro ⟨_, ⟨n, hn, rfl⟩, more, h, rfl⟩
      exact ⟨more, ⟨n, hn, h⟩, rfl⟩
  · have hstep : unit b s c digits = some ⟨.unit s (digits ++ [c]), b⟩ :=
      unit.eq_2 _ _ _ _ fun x y z h => hlast ⟨x, y, z, h⟩
    have hthree : digits.length ≠ 3 := by
      intro h
      match digits, h with
      | [x, y, z], _ => exact hlast ⟨x, y, z, rfl⟩
    have hless : digits.length < 4 ↔ (digits ++ [c]).length < 4 := by
      rw [List.length_append, List.length_singleton]
      omega
    simp only [step, hstep, Option.some.injEq, exists_eq_left', Reads, Follows, hless,
      List.append_assoc, List.singleton_append]

theorem reads_cons (l : Lexer) :
    l.Reads (c :: cs) ts ↔ ∃ next, l.step c = some next ∧ next.Reads cs ts := by
  obtain ⟨position, b⟩ := l
  cases position with
  | gap =>
    simp only [step, Option.some.injEq, exists_eq_left', reads_outside]
    rfl
  | word w => exact reads_word b
  | text s => exact reads_text b
  | escape s => exact reads_escape b
  | unit s digits => exact reads_unit b digits

theorem reads_nil (l : Lexer) : l.Reads [] ts ↔ l.tokens?.map List.reverse = some ts := by
  obtain ⟨position, b⟩ := l
  cases position with
  | gap =>
    simp only [Reads, Follows, spellsTokens_nil, exists_eq_left, Lexer.tokens?, Option.map_some,
      Option.some.injEq]
    exact eq_comm
  | word w =>
    simp only [Reads, Follows, inWord_nil, Lexer.tokens?, Option.map_map, Option.map_eq_some_iff,
      ofWord?_eq_some_iff]
    constructor
    · rintro ⟨_, ⟨t, ht, rfl⟩, rfl⟩
      exact ⟨t, ht, rfl⟩
    · rintro ⟨t, ht, rfl⟩
      exact ⟨_, ⟨t, ht, rfl⟩, rfl⟩
  | text s => simp [Reads, Follows, not_inText_nil, Lexer.tokens?]
  | escape s => simp [Reads, Follows, not_inText_escape, Lexer.tokens?]
  | unit s digits =>
    simp only [Reads, Follows, List.append_nil, Lexer.tokens?, Option.map_none, reduceCtorEq,
      iff_false]
    rintro ⟨_, ⟨hless, h⟩, -⟩
    exact not_inText_unit hless h

theorem run_iff (l : Lexer) :
    (((cs.foldlM step l).bind Lexer.tokens?).map List.reverse = some ts) ↔ l.Reads cs ts := by
  induction cs generalizing l with
  | nil => exact (reads_nil l).symm
  | cons c cs ih =>
    rw [reads_cons, List.foldlM_cons]
    cases h : l.step c with
    | none => simp
    | some next => simpa using ih next

/-- A text is cut into what it spells. -/
theorem tokens?_eq_some_iff : tokens? cs = some ts ↔ SpellsTokens cs ts := by
  rw [tokens?, run_iff]
  simp [Reads, Follows, start]

end Rebuild.Json
