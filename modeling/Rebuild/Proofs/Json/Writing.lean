import Rebuild.Proofs.Json.Legible
import Rebuild.Proofs.Json.Reading

/-!
# Reading what was written

A value is written by the grammar: its text spells a document. The value of
this document is the value that is read again. So a legible value that is
written comes back from its text.
-/

set_option autoImplicit false

namespace Rebuild.Json

variable {a b cs rest : List Char} {c : Char} {t : Token} {ts us : List Token}
  {units : List TextUnit}

/-! ## Texts side by side -/

theorem ended_nil : Ended [] := fun _ _ h => nomatch h

theorem ended_punctuation (h : Token.ofPunctuation? c = some t) : Ended (c :: cs) := by
  rintro _ _ ⟨⟩
  exact endsWord_iff.mpr (Or.inr (Or.inr ⟨t, h⟩))

theorem SpellsText.append (h : SpellsText rest a units) (b : List Char) :
    SpellsText (rest ++ b) (a ++ b) units := by
  induction h with
  | close => exact .close
  | char hquote hbackslash hplain _ ih => exact .char hquote hbackslash hplain ih
  | escape he _ ih => exact .escape he ih
  | unit hn _ ih => exact .unit hn ih

theorem SpellsTokens.append (ha : SpellsTokens a ts) (hended : Ended b) (hb : SpellsTokens b us) :
    SpellsTokens (a ++ b) (ts ++ us) := by
  induction ha with
  | nil => exact hb
  | blank hc _ ih => exact .blank hc ih
  | punctuation ht _ ih => exact .punctuation ht ih
  | text htext _ ih => exact .text (htext.append b) ih
  | @word w rest t ts hw hends _ ih =>
    rw [List.append_assoc]
    refine .word hw ?_ ih
    cases rest with
    | nil => exact hended
    | cons d rest =>
      rintro _ _ ⟨⟩
      exact hends d rest rfl

theorem SpellsTokens.punctuated (ha : SpellsTokens a ts) (hc : Token.ofPunctuation? c = some t)
    (hb : SpellsTokens b us) : SpellsTokens (a ++ c :: b) (ts ++ t :: us) :=
  ha.append (ended_punctuation hc) (.punctuation hc hb)

theorem spellsTokens_of_word {w : List Char} (h : SpellsWord w t) : SpellsTokens w [t] := by
  have hspells := SpellsTokens.word h ended_nil .nil
  rwa [List.append_nil] at hspells

/-! ## Strings -/

theorem hexNumber?_control {n : Nat} (h : n < 0x20) :
    hexNumber? ['0', '0', hexDigit (n / 16), hexDigit (n % 16)] = some n := by
  revert n
  decide

theorem spellsText_escapeChar (h : SpellsText rest cs units) (c : Char) :
    SpellsText rest (escapeChar c ++ cs) (.char c :: units) := by
  rw [escapeChar]
  repeat' split
  any_goals
    rename_i hc
    rw [hc]
    exact .escape rfl h
  · rename_i hcontrol
    have hunit : TextUnit.ofNat c.toNat = .char c := by
      rw [TextUnit.ofNat, if_neg (by simp [isLeadUnit, isTrailUnit]; omega), Char.ofNat_toNat]
    exact hunit ▸ .unit (hexNumber?_control hcontrol) h
  · rename_i hquote hbackslash _ _ _ _ _ hplain
    exact .char hquote hbackslash (Nat.le_of_not_lt hplain) h

def writtenText (s : String) : List TextUnit := s.toList.map .char

theorem spellsText_written (cs rest : List Char) :
    SpellsText rest (cs.flatMap escapeChar ++ '"' :: rest) (cs.map .char) := by
  induction cs with
  | nil => exact .close
  | cons c cs ih =>
    rw [List.flatMap_cons, List.append_assoc]
    exact spellsText_escapeChar ih c

theorem spellsTokens_text (s : String) : SpellsTokens (quote s) [.text (writtenText s)] :=
  .text (spellsText_written s.toList []) .nil

theorem joinOnto?_char (b cs : List Char) :
    TextUnit.joinOnto? b (cs.map .char) = some (b.reverse ++ cs) := by
  induction cs generalizing b with
  | nil => simp [TextUnit.joinOnto?]
  | cons c cs ih =>
    rw [List.map_cons, TextUnit.joinOnto?, ih, List.reverse_cons, List.append_assoc]
    rfl

theorem string?_writtenText (s : String) : TextUnit.string? (writtenText s) = some s := by
  rw [TextUnit.string?, writtenText, joinOnto?_char]
  exact congrArg some String.ofList_toList

/-! ## Values -/

mutual

/-- The document that is written for a value. -/
def written : Json → Document
  | .null => .null
  | .bool b => .bool b
  | .integer i => .number (numeralOf (integerChars i))
  | .float x => .number (numeralOf (floatChars x))
  | .string s => .text (writtenText s)
  | .array items => .array (writtenItems items)
  | .object members => .object (writtenMembers members)

def writtenItems : List Json → List Document
  | [] => []
  | v :: rest => written v :: writtenItems rest

def writtenMembers : List (String × Json) → Document.Entries
  | [] => []
  | (key, v) :: rest => (writtenText key, written v) :: writtenMembers rest

end

theorem spellsTokens_items {items : List Json}
    (h : ∀ v ∈ items, (written v).SpelledBy (chars v)) :
    SpellsTokens (itemsChars items) (Document.itemsTokens (writtenItems items)) := by
  induction items with
  | nil => exact .nil
  | cons v rest ih =>
    have hv := h v (List.mem_cons_self ..)
    cases rest with
    | nil => exact hv
    | cons w rest => exact hv.punctuated rfl (ih fun u hu => h u (List.mem_cons_of_mem _ hu))

theorem spellsTokens_members {members : Members}
    (h : ∀ m ∈ members, (written m.2).SpelledBy (chars m.2)) :
    SpellsTokens (membersChars members) (Document.entriesTokens (writtenMembers members)) := by
  induction members with
  | nil => exact .nil
  | cons m rest ih =>
    have hm := (spellsTokens_text m.1).punctuated (c := ':') rfl (h m (List.mem_cons_self ..))
    cases rest with
    | nil => exact hm
    | cons e rest => exact hm.punctuated rfl (ih fun u hu => h u (List.mem_cons_of_mem _ hu))

theorem spelledBy_object {members : Members}
    (h : ∀ m ∈ members, (written m.2).SpelledBy (chars m.2)) :
    (written (.object members)).SpelledBy (chars (.object members)) :=
  .punctuation (c := '\x7b') rfl ((spellsTokens_members h).punctuated (c := '\x7d') rfl .nil)

theorem spelledBy_chars {room : Nat} {v : Json} (h : Legible room v) :
    (written v).SpelledBy (chars v) := by
  induction h with
  | null => exact spellsTokens_of_word .null
  | bool room b =>
    cases b with
    | true => exact spellsTokens_of_word .yes
    | false => exact spellsTokens_of_word .no
  | integer room hi => exact spellsTokens_of_word (.number (numeralOf_integer hi).1)
  | float room hx => exact spellsTokens_of_word (.number (numeralOf_float hx).1)
  | string room s => exact spellsTokens_text s
  | array _ ih =>
    exact .punctuation (c := '[') rfl ((spellsTokens_items ih).punctuated (c := ']') rfl .nil)
  | object _ _ ih => exact spelledBy_object ih

theorem itemsToJson?_written {room : Nat} {items : List Json}
    (h : ∀ v ∈ items, (written v).toJson? room = some (reread v)) :
    Document.itemsToJson? room (writtenItems items) = some (rereadItems items) := by
  induction items with
  | nil => rfl
  | cons v rest ih =>
    simp only [writtenItems, Document.itemsToJson?, h v (List.mem_cons_self ..),
      ih fun u hu => h u (List.mem_cons_of_mem _ hu), Option.bind_eq_bind, Option.bind_some,
      rereadItems]

theorem entriesToJson?_written {room : Nat} {before members : Members}
    (h : ∀ m ∈ members, (written m.2).toJson? room = some (reread m.2)) :
    Document.entriesToJson? room before (writtenMembers members) =
      some (collect before (rereadMembers members)) := by
  induction members generalizing before with
  | nil => rfl
  | cons m rest ih =>
    simp only [writtenMembers, Document.entriesToJson?, string?_writtenText,
      h m (List.mem_cons_self ..), Option.bind_eq_bind, Option.bind_some,
      ih fun u hu => h u (List.mem_cons_of_mem _ hu)]
    rfl

theorem toJson?_written {room : Nat} {v : Json} (h : Legible room v) :
    (written v).toJson? room = some (reread v) := by
  induction h with
  | null | bool => rfl
  | integer room hi => exact (numeralOf_integer hi).2
  | float room hx => exact (numeralOf_float hx).2
  | string room s => exact congrArg (Option.map Json.string) (string?_writtenText s)
  | array _ ih => exact congrArg (Option.map Json.array) (itemsToJson?_written ih)
  | @object room members hascending _ ih =>
    have hordered : Ascending (rereadMembers members) := by
      rw [rereadMembers_eq]
      exact List.pairwise_map.mpr hascending
    have hmembers : Document.entriesToJson? room [] (writtenMembers members) =
        some (collect [] (rereadMembers members)) := entriesToJson?_written ih
    rw [collect_of_ascending hordered] at hmembers
    exact congrArg (Option.map Json.object) hmembers

/-- A legible value that is written can be read again. -/
theorem parse?_render {v : Json} (h : Legible Document.maxDepth v) :
    parse? v.render = some (reread v) := by
  rw [parse?, Document.parse?_eq_some_iff.mpr, Option.bind_some, toJson?_written h]
  rw [render, String.toList_ofList]
  exact spelledBy_chars h

end Rebuild.Json
