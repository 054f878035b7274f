import Rebuild.Json.Reader
import Rebuild.Proofs.Text.Splitting

/-!
# The grammar of JSON

A text spells tokens with blanks between them, and a document is spelled by a
text that spells its tokens. This says nothing of what numbers and strings
stand for. Words are read by the grammar: they are what it makes of them, and
nothing else is.
-/

set_option autoImplicit false

namespace Rebuild.Json

/-! ## Numbers -/

namespace Number

def Digits (cs : List Char) : Prop := ∀ c ∈ cs, c.isDigit = true

structure Whole (cs : List Char) : Prop where
  digits : Digits cs
  nonempty : cs ≠ []
  leading : ¬(cs.head? = some '0' ∧ cs.length > 1)

inductive SpellsFraction : List Char → List Char → Prop where
  | absent : SpellsFraction [] []
  | point {digits : List Char} : Digits digits → digits ≠ [] → SpellsFraction ('.' :: digits) digits

inductive SpellsPower : List Char → Exponent → Prop where
  | unsigned {digits : List Char} : Digits digits → digits ≠ [] → SpellsPower digits ⟨false, digits⟩
  | plus {digits : List Char} : Digits digits → digits ≠ [] →
    SpellsPower ('+' :: digits) ⟨false, digits⟩
  | minus {digits : List Char} : Digits digits → digits ≠ [] →
    SpellsPower ('-' :: digits) ⟨true, digits⟩

inductive SpellsExponent : List Char → Option Exponent → Prop where
  | absent : SpellsExponent [] none
  | lower {cs : List Char} {e : Exponent} : SpellsPower cs e → SpellsExponent ('e' :: cs) (some e)
  | upper {cs : List Char} {e : Exponent} : SpellsPower cs e → SpellsExponent ('E' :: cs) (some e)

inductive SpellsUnsigned (negative : Bool) : List Char → Numeral → Prop where
  | parts {whole point fraction power : List Char} {exponent : Option Exponent} :
    Whole whole → SpellsFraction point fraction → SpellsExponent power exponent →
    SpellsUnsigned negative (whole ++ (point ++ power)) ⟨negative, whole, fraction, exponent⟩

inductive Spells : List Char → Numeral → Prop where
  | positive {cs : List Char} {n : Numeral} : SpellsUnsigned false cs n → Spells cs n
  | negative {cs : List Char} {n : Numeral} : SpellsUnsigned true cs n → Spells ('-' :: cs) n

end Number

/-! ## Tokens -/

inductive SpellsWord : List Char → Token → Prop where
  | null : SpellsWord ['n', 'u', 'l', 'l'] .null
  | yes : SpellsWord ['t', 'r', 'u', 'e'] (.bool true)
  | no : SpellsWord ['f', 'a', 'l', 's', 'e'] (.bool false)
  | number {cs : List Char} {n : Numeral} : Number.Spells cs n → SpellsWord cs (.number n)

/-- What is spelled up to the quote that closes a string, which the rest follows. -/
inductive SpellsText (rest : List Char) : List Char → List TextUnit → Prop where
  | close : SpellsText rest ('"' :: rest) []
  | char {c : Char} {cs : List Char} {units : List TextUnit} :
    c ≠ '"' → c ≠ '\\' → 0x20 ≤ c.toNat → SpellsText rest cs units →
    SpellsText rest (c :: cs) (.char c :: units)
  | escape {c e : Char} {cs : List Char} {units : List TextUnit} :
    escaped? c = some e → SpellsText rest cs units →
    SpellsText rest ('\\' :: c :: cs) (.char e :: units)
  | unit {x y z w : Char} {n : Nat} {cs : List Char} {units : List TextUnit} :
    hexNumber? [x, y, z, w] = some n → SpellsText rest cs units →
    SpellsText rest ('\\' :: 'u' :: x :: y :: z :: w :: cs) (.ofNat n :: units)

def Ended (rest : List Char) : Prop := ∀ c cs, rest = c :: cs → Lexer.endsWord c = true

inductive SpellsTokens : List Char → List Token → Prop where
  | nil : SpellsTokens [] []
  | blank {c : Char} {cs : List Char} {ts : List Token} :
    isBlank c = true → SpellsTokens cs ts → SpellsTokens (c :: cs) ts
  | punctuation {c : Char} {t : Token} {cs : List Char} {ts : List Token} :
    Token.ofPunctuation? c = some t → SpellsTokens cs ts → SpellsTokens (c :: cs) (t :: ts)
  | text {cs rest : List Char} {units : List TextUnit} {ts : List Token} :
    SpellsText rest cs units → SpellsTokens rest ts →
    SpellsTokens ('"' :: cs) (.text units :: ts)
  | word {w rest : List Char} {t : Token} {ts : List Token} :
    SpellsWord w t → Ended rest → SpellsTokens rest ts → SpellsTokens (w ++ rest) (t :: ts)

/-! ## Documents -/

namespace Document

mutual

def tokens : Document → List Token
  | .null => [.null]
  | .bool b => [.bool b]
  | .number n => [.number n]
  | .text units => [.text units]
  | .array items => .openArray :: itemsTokens items ++ [.closeArray]
  | .object entries => .openObject :: entriesTokens entries ++ [.closeObject]

def itemsTokens : List Document → List Token
  | [] => []
  | [d] => tokens d
  | d :: e :: rest => tokens d ++ .comma :: itemsTokens (e :: rest)

def entriesTokens : List (List TextUnit × Document) → List Token
  | [] => []
  | [(key, d)] => .text key :: .colon :: tokens d
  | (key, d) :: m :: rest => .text key :: .colon :: tokens d ++ .comma :: entriesTokens (m :: rest)

end

@[elab_as_elim]
theorem induct {P : Document → Prop} (null : P .null) (bool : ∀ b, P (.bool b))
    (number : ∀ n, P (.number n)) (text : ∀ units, P (.text units))
    (array : ∀ items, (∀ d ∈ items, P d) → P (.array items))
    (object : ∀ entries : Entries, (∀ m ∈ entries, P m.2) → P (.object entries))
    (d : Document) : P d :=
  @Document.rec P (fun items => ∀ d ∈ items, P d) (fun entries => ∀ m ∈ entries, P m.2)
    (fun m => P m.2) null bool number text array object (List.forall_mem_nil _)
    (fun _ _ hd hrest => List.forall_mem_cons.mpr ⟨hd, hrest⟩) (List.forall_mem_nil _)
    (fun _ _ hm hrest => List.forall_mem_cons.mpr ⟨hm, hrest⟩) (fun _ _ hd => hd) d

/-- A text by the grammar. -/
def SpelledBy (d : Document) (cs : List Char) : Prop := SpellsTokens cs d.tokens

end Document

/-! ## Reading words -/

namespace Number

variable {cs rest digits : List Char} {negative : Bool}

theorem isDigits_iff : isDigits cs = true ↔ Digits cs ∧ cs ≠ [] := by
  rw [isDigits, Bool.and_eq_true, List.all_eq_true, and_comm, Bool.not_eq_true',
    List.isEmpty_eq_false_iff, Digits]

theorem power?_eq_some_iff {e : Exponent} :
    power? negative digits = some e ↔ (Digits digits ∧ digits ≠ []) ∧ e = ⟨negative, digits⟩ := by
  rw [power?, ← isDigits_iff]
  split
  · rename_i h
    rw [Option.some.injEq, eq_comm, and_iff_right h]
  · rename_i h
    exact iff_of_false nofun fun hd => h hd.1

theorem signedPower?_eq_some_iff {e : Exponent} :
    signedPower? cs = some e ↔ SpellsPower cs e := by
  constructor
  · intro h
    rw [signedPower?.eq_def] at h
    split at h
    · obtain ⟨⟨hdigits, hne⟩, rfl⟩ := power?_eq_some_iff.mp h
      exact .plus hdigits hne
    · obtain ⟨⟨hdigits, hne⟩, rfl⟩ := power?_eq_some_iff.mp h
      exact .minus hdigits hne
    · obtain ⟨⟨hdigits, hne⟩, rfl⟩ := power?_eq_some_iff.mp h
      exact .unsigned hdigits hne
  · intro h
    cases h with
    | plus hdigits hne => exact power?_eq_some_iff.mpr ⟨⟨hdigits, hne⟩, rfl⟩
    | minus hdigits hne => exact power?_eq_some_iff.mpr ⟨⟨hdigits, hne⟩, rfl⟩
    | unsigned hdigits hne =>
      rw [signedPower?.eq_3]
      · exact power?_eq_some_iff.mpr ⟨⟨hdigits, hne⟩, rfl⟩
      · rintro _ rfl
        exact absurd (hdigits '+' (List.mem_cons_self ..)) (by decide)
      · rintro _ rfl
        exact absurd (hdigits '-' (List.mem_cons_self ..)) (by decide)

theorem exponent?_eq_some_iff {exponent : Option Exponent} :
    exponent? cs = some exponent ↔ SpellsExponent cs exponent := by
  constructor
  · intro h
    rw [exponent?.eq_def] at h
    split at h
    · cases h
      exact .absent
    · split at h
      · rename_i hmark
        obtain ⟨e, he, rfl⟩ := Option.map_eq_some_iff.mp h
        rw [isExponentMark, Bool.or_eq_true, beq_iff_eq, beq_iff_eq] at hmark
        rcases hmark with rfl | rfl
        · exact .lower (signedPower?_eq_some_iff.mp he)
        · exact .upper (signedPower?_eq_some_iff.mp he)
      · cases h
  · intro h
    cases h with
    | absent => rfl
    | lower he => exact Option.map_eq_some_iff.mpr ⟨_, signedPower?_eq_some_iff.mpr he, rfl⟩
    | upper he => exact Option.map_eq_some_iff.mpr ⟨_, signedPower?_eq_some_iff.mpr he, rfl⟩

theorem exists_of_fraction? {fraction : List Char} (h : fraction? cs = some (fraction, rest)) :
    ∃ point, SpellsFraction point fraction ∧ cs = point ++ rest := by
  rw [fraction?.eq_def] at h
  split at h
  · rename_i cs
    dsimp only at h
    split at h
    · cases h
    · rename_i hne
      cases h
      exact ⟨_, .point (fun c hc => List.all_eq_true.mp List.all_takeWhile c hc) hne,
        congrArg _ List.takeWhile_append_dropWhile.symm⟩
  · cases h
    exact ⟨[], .absent, rfl⟩

theorem fraction?_append {point fraction power : List Char} {exponent : Option Exponent}
    (h : SpellsFraction point fraction) (hpower : SpellsExponent power exponent) :
    fraction? (point ++ power) = some (fraction, power) := by
  cases h with
  | absent => cases hpower <;> rfl
  | point hdigits hne =>
    have hcut := Text.span_append hdigits (b := power) (by
      rintro c rest rfl
      cases hpower <;> rfl)
    rw [List.cons_append, fraction?, hcut.1, hcut.2, if_neg hne]

theorem unsigned?_eq_some_iff {n : Numeral} :
    unsigned? negative cs = some n ↔ SpellsUnsigned negative cs n := by
  constructor
  · intro h
    rw [unsigned?] at h
    dsimp only at h
    split at h
    · cases h
    · rename_i hwhole
      obtain ⟨⟨fraction, power⟩, hfraction, hrest⟩ := Option.bind_eq_some_iff.mp h
      obtain ⟨exponent, hexponent, rfl⟩ := Option.map_eq_some_iff.mp hrest
      obtain ⟨point, hpoint, hcut⟩ := exists_of_fraction? hfraction
      obtain ⟨hne, hleading⟩ := not_or.mp hwhole
      have hdigits : Digits (cs.takeWhile Char.isDigit) :=
        fun c hc => List.all_eq_true.mp List.all_takeWhile c hc
      have hparts : SpellsUnsigned negative (cs.takeWhile Char.isDigit ++ (point ++ power))
          ⟨negative, cs.takeWhile Char.isDigit, fraction, exponent⟩ :=
        .parts ⟨hdigits, hne, hleading⟩ hpoint (exponent?_eq_some_iff.mp hexponent)
      rwa [← hcut, List.takeWhile_append_dropWhile] at hparts
  · rintro ⟨hwhole, hpoint, hpower⟩
    rename_i whole point fraction power exponent
    have hcut := Text.span_append hwhole.digits (b := point ++ power) (by
      intro c rest h
      cases hpoint with
      | absent =>
        cases hpower with
        | absent => cases h
        | lower | upper =>
          cases h
          rfl
      | point =>
        cases h
        rfl)
    rw [unsigned?, hcut.1, hcut.2, if_neg (not_or.mpr ⟨hwhole.nonempty, hwhole.leading⟩),
      fraction?_append hpoint hpower]
    simp only [Option.bind_some, exponent?_eq_some_iff.mpr hpower, Option.map_some]

theorem SpellsUnsigned.head {n : Numeral} (h : SpellsUnsigned negative cs n) :
    ∃ c rest, cs = c :: rest ∧ c.isDigit = true := by
  obtain ⟨⟨hdigits, hne, -⟩, -, -⟩ := h
  obtain ⟨c, rest, rfl⟩ := List.exists_cons_of_ne_nil hne
  exact ⟨c, _, rfl, hdigits c (List.mem_cons_self ..)⟩

theorem ofWord?_eq_some_iff {n : Numeral} : ofWord? cs = some n ↔ Spells cs n := by
  constructor
  · intro h
    rw [ofWord?.eq_def] at h
    split at h
    · exact .negative (unsigned?_eq_some_iff.mp h)
    · exact .positive (unsigned?_eq_some_iff.mp h)
  · intro h
    cases h with
    | negative h => exact unsigned?_eq_some_iff.mpr h
    | positive h =>
      rw [ofWord?.eq_2]
      · exact unsigned?_eq_some_iff.mpr h
      · rintro _ rfl
        obtain ⟨c, _, hc, hdigit⟩ := h.head
        cases hc
        cases hdigit

def IsWordChar (c : Char) : Prop := c.isDigit = true ∨ c ∈ ['-', '+', '.', 'e', 'E']

instance (c : Char) : Decidable (IsWordChar c) := by
  unfold IsWordChar
  infer_instance

theorem Digits.wordChars (h : Digits cs) : ∀ c ∈ cs, IsWordChar c := fun c hc => Or.inl (h c hc)

theorem SpellsPower.wordChars {e : Exponent} (h : SpellsPower cs e) : ∀ c ∈ cs, IsWordChar c := by
  cases h with
  | unsigned hdigits => exact hdigits.wordChars
  | plus hdigits | minus hdigits =>
    exact List.forall_mem_cons.mpr ⟨Or.inr (by decide), hdigits.wordChars⟩

theorem SpellsUnsigned.wordChars {n : Numeral} (h : SpellsUnsigned negative cs n) :
    ∀ c ∈ cs, IsWordChar c := by
  obtain ⟨hwhole, hpoint, hpower⟩ := h
  refine List.forall_mem_append.mpr ⟨hwhole.digits.wordChars, List.forall_mem_append.mpr ⟨?_, ?_⟩⟩
  · cases hpoint with
    | absent => exact List.forall_mem_nil _
    | point hdigits => exact List.forall_mem_cons.mpr ⟨Or.inr (by decide), hdigits.wordChars⟩
  · cases hpower with
    | absent => exact List.forall_mem_nil _
    | lower h | upper h => exact List.forall_mem_cons.mpr ⟨Or.inr (by decide), h.wordChars⟩

theorem Spells.wordChars {n : Numeral} (h : Spells cs n) :
    cs ≠ [] ∧ ∀ c ∈ cs, IsWordChar c := by
  cases h with
  | positive h =>
    obtain ⟨c, rest, rfl, -⟩ := h.head
    exact ⟨List.cons_ne_nil _ _, h.wordChars⟩
  | negative h =>
    exact ⟨List.cons_ne_nil _ _, List.forall_mem_cons.mpr ⟨Or.inr (by decide), h.wordChars⟩⟩

end Number

theorem ofWord?_eq_some_iff {w : List Char} {t : Token} :
    Token.ofWord? w = some t ↔ SpellsWord w t := by
  constructor
  · intro h
    rw [Token.ofWord?] at h
    split at h
    · rename_i hw
      cases h
      exact hw ▸ .null
    · split at h
      · rename_i hw
        cases h
        exact hw ▸ .yes
      · split at h
        · rename_i hw
          cases h
          exact hw ▸ .no
        · obtain ⟨n, hn, rfl⟩ := Option.map_eq_some_iff.mp h
          exact .number (Number.ofWord?_eq_some_iff.mp hn)
  · intro h
    cases h with
    | null | yes | no => rfl
    | number h =>
      have hplain {c : Char} {cs : List Char} (hc : ¬Number.IsWordChar c) : w ≠ c :: cs := by
        rintro rfl
        exact hc (h.wordChars.2 c (List.mem_cons_self ..))
      rw [Token.ofWord?, if_neg (hplain (by decide)), if_neg (hplain (by decide)),
        if_neg (hplain (by decide)), Number.ofWord?_eq_some_iff.mpr h]
      rfl

end Rebuild.Json
