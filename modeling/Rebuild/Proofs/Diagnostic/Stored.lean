import Rebuild.Diagnostic.CompileError
import Rebuild.Proofs.Json.Writing

/-!
# Stored errors

A compile error is stored as a text and read back. The text lists all fields.
Other texts may list them in another order, leave out what is null and say
more: what is read depends on what is given to the fields and on nothing else.
What is given to other keys is held to the grammar, but needs no value.
-/

set_option autoImplicit false

namespace Rebuild.CompileError

open Json

/-! ## Fields -/

/-- What a field is given, unless that is null. -/
def given? (name : String) (members : List (String × Document)) : Option Document :=
  (member? name members).filter (!documentReader.isNull ·)

theorem bind_given {α : Type} {decode : Document → Option α} (hnull : decode .null = none)
    (o : Option Document) : (o.filter (!documentReader.isNull ·)).bind decode = o.bind decode := by
  cases o with
  | none => rfl
  | some d =>
    cases d with
    | null => exact hnull.symm
    | _ => rfl

theorem optional_given {α : Type} (decode : Document → Option α) (o : Option Document) :
    optional documentReader decode (o.filter (!documentReader.isNull ·)) =
      optional documentReader decode o := by
  cases o with
  | none => rfl
  | some d => cases d <;> rfl

theorem ofFields?_given (category code message fileName line column : Option Document) :
    ofFields? documentReader (category.filter (!documentReader.isNull ·))
      (code.filter (!documentReader.isNull ·)) (message.filter (!documentReader.isNull ·))
      (fileName.filter (!documentReader.isNull ·)) (line.filter (!documentReader.isNull ·))
      (column.filter (!documentReader.isNull ·)) =
    ofFields? documentReader category code message fileName line column := by
  rw [ofFields?, bind_given rfl, bind_given rfl, bind_given rfl, optional_given, optional_given,
    optional_given, ofFields?]

theorem ofMembers?_congr {ms ns : List (String × Document)}
    (h : ∀ name ∈ fieldNames, given? name ms = given? name ns) :
    ofMembers? documentReader ms = ofMembers? documentReader ns := by
  have hcategory := h "category" (by simp [fieldNames])
  have hcode := h "code" (by simp [fieldNames])
  have hmessage := h "message" (by simp [fieldNames])
  have hfile := h "file_name" (by simp [fieldNames])
  have hline := h "line" (by simp [fieldNames])
  have hcolumn := h "column" (by simp [fieldNames])
  rw [given?, given?] at hcategory hcode hmessage hfile hline hcolumn
  rw [ofMembers?, ← ofFields?_given, hcategory, hcode, hmessage, hfile, hline, hcolumn,
    ofFields?_given, ofMembers?]

/-! ## What is stored -/

theorem inRange_word (w : UInt32) : Number.InRange w.toNat := by
  have hlt := w.toNat_lt
  rw [Number.inRange_iff]
  omega

theorem word?_wordJson (w : UInt32) : word? (wordJson w) = some w := by
  have hlt := w.toNat_lt
  rw [wordJson, word?, if_pos (by omega)]
  simp

theorem category_written (c : Category) : documentReader.category? (written c.toJson) = some c := by
  have htext : documentReader.category? (written c.toJson) =
      (TextUnit.string? (writtenText c.text)).bind Category.ofText? := rfl
  rw [htext, string?_writtenText, Option.bind_some, Category.ofText?_text]

theorem string_written (s : String) : documentReader.string? (written (.string s)) = some s :=
  string?_writtenText s

theorem word_written (w : UInt32) : documentReader.word? (written (wordJson w)) = some w := by
  have hnumber : documentReader.word? (written (wordJson w)) =
      (numeralOf (integerChars w.toNat)).toJson?.bind word? := rfl
  rw [hnumber, (numeralOf_integer (inRange_word w)).2, Option.bind_some]
  exact word?_wordJson w

theorem optional_written {α : Type} {decode : Document → Option α} {encode : α → Json}
    (hdecode : ∀ a, decode (written (encode a)) = some a) (hnull : decode .null = none)
    (o : Option α) :
    optional documentReader decode (some (written ((o.map encode).getD .null))) = some o := by
  cases o with
  | none => rfl
  | some a =>
    have ha := hdecode a
    rw [Option.map_some, Option.getD_some]
    cases hv : written (encode a) with
    | null =>
      rw [hv, hnull] at ha
      cases ha
    | _ =>
      rw [hv] at ha
      exact congrArg (Option.map some) ha

def listed (members : Members) : List (String × Document) :=
  members.map fun m => (m.1, written m.2)

theorem named?_written (members : Members) :
    named? (writtenMembers members) = some (listed members) := by
  induction members with
  | nil => rfl
  | cons m rest ih =>
    rw [named?] at ih
    simp only [named?, writtenMembers, List.mapM_cons, string?_writtenText, ih]
    rfl

def members : Json → Members
  | .object ms => ms
  | _ => []

theorem ofMembers?_listed (e : CompileError) :
    ofMembers? documentReader (listed (members e.toJson)) = some e := by
  have hlisted : ofMembers? documentReader (listed (members e.toJson)) =
      ofFields? documentReader (some (written e.category.toJson))
        (some (written (wordJson e.code.number))) (some (written (.string e.message)))
        (some (written ((e.fileName.map fun p => Json.string p.text).getD .null)))
        (some (written ((e.line.map wordJson).getD .null)))
        (some (written ((e.column.map wordJson).getD .null))) := rfl
  have hfile : (e.fileName.map fun p => Json.string p.text).getD .null =
      ((e.fileName.map Path.text).map Json.string).getD .null := by
    rw [Option.map_map]
    rfl
  have hpath : (e.fileName.map Path.text).map Path.mk = e.fileName := by
    cases e.fileName <;> rfl
  rw [hlisted, hfile, ofFields?, Option.bind_some, Option.bind_some, Option.bind_some,
    category_written, word_written, string_written, optional_written string_written rfl,
    optional_written word_written rfl, optional_written word_written rfl]
  simp only [Option.bind_eq_bind, Option.bind_some, hpath]

theorem legible_members (e : CompileError) (room : Nat) :
    ∀ m ∈ members e.toJson, Legible room m.2 := by
  have hword (w : UInt32) : Legible room (wordJson w) := .integer room (inRange_word w)
  have hoptional {α : Type} {encode : α → Json} (h : ∀ a, Legible room (encode a))
      (o : Option α) : Legible room ((o.map encode).getD .null) := by
    cases o with
    | none => exact .null room
    | some a => exact h a
  simp only [toJson, members, List.forall_mem_cons]
  exact ⟨.string .., hword _, .string .., hoptional (fun _ => .string ..) _, hoptional hword _,
    hoptional hword _, List.forall_mem_nil _⟩

/-! ## Texts -/

/-- The text is an object of these members, with names for keys, that gives no field twice. -/
structure Lists (s : String) (members : List (String × Document)) : Prop where
  spelled : ∃ entries, (Document.object entries).SpelledBy s.toList ∧ named? entries = some members
  once : ∀ name ∈ fieldNames, (members.map Prod.fst).count name ≤ 1

theorem Lists.parse? {s : String} {members : List (String × Document)} (h : Lists s members) :
    parse? s = ofMembers? documentReader members := by
  obtain ⟨⟨entries, hspelled, hnamed⟩, honce⟩ := h
  have hunambiguous : isUnambiguous members = true :=
    List.all_eq_true.mpr fun name hname => decide_eq_true (honce name hname)
  rw [CompileError.parse?, Document.parse?_eq_some_iff.mpr hspelled, Option.bind_some, ofDocument?,
    hnamed]
  exact if_pos hunambiguous

theorem lists_of_parse? {s : String} {e : CompileError} (h : CompileError.parse? s = some e) :
    (∃ members, Lists s members) ∨ ∃ items, (Document.array items).SpelledBy s.toList := by
  obtain ⟨d, hd, he⟩ := Option.bind_eq_some_iff.mp h
  have hspelled := Document.parse?_eq_some_iff.mp hd
  cases d with
  | object entries =>
    obtain ⟨members, hnamed, hrest⟩ := Option.bind_eq_some_iff.mp he
    refine Or.inl ⟨members, ⟨entries, hspelled, hnamed⟩, fun name hname => ?_⟩
    split at hrest
    · rename_i honce
      exact of_decide_eq_true (List.all_eq_true.mp honce name hname)
    · cases hrest
  | array items => exact Or.inr ⟨items, hspelled⟩
  | null | bool | number | text => cases he

theorem lists_render (e : CompileError) : Lists e.render (listed (members e.toJson)) := by
  refine ⟨⟨writtenMembers (members e.toJson), ?_, named?_written _⟩, ?_⟩
  · rw [render, Json.render, String.toList_ofList]
    exact spelledBy_object fun m hm => spelledBy_chars (e.legible_members 0 m hm)
  · have hkeys : (listed (members e.toJson)).map Prod.fst = fieldNames := rfl
    rw [hkeys]
    decide

theorem parse?_stored (e : CompileError) : parse? e.render = some e := by
  rw [e.lists_render.parse?, ofMembers?_listed]

/-- Stored errors are read back, those that came from a text included, however it was written.
Such a text is the list of all fields or an object. Two objects are read alike if they give the
same to the fields: unknown keys do not count, whatever is behind them, nor does the order, and
null is as good as nothing. -/
theorem parse?_render_exact :
    (∀ e : CompileError, parse? e.render = some e) ∧
    (∀ s e, parse? s = some e → parse? e.render = some e) ∧
    (∀ s e, parse? s = some e →
      (∃ ms, Lists s ms) ∨ ∃ items, (Document.array items).SpelledBy s.toList) ∧
    ∀ s t ms ns, Lists s ms → Lists t ns →
      (∀ name ∈ fieldNames, given? name ms = given? name ns) → parse? s = parse? t := by
  refine ⟨parse?_stored, fun _ e _ => e.parse?_stored, fun _ _ h => lists_of_parse? h, ?_⟩
  intro s t ms ns hs ht hgiven
  rw [hs.parse?, ht.parse?, ofMembers?_congr hgiven]

/-- The fields in another order, without the ones that are null, behind a key with a number that
is too large and half of a character. -/
theorem parse?_render_exact_sparse :
    let e : CompileError := ⟨.error, ⟨1005⟩, "\"", none, some 3, none⟩
    let s := "\x7b\"x\":[1e400,\"\\ud800\"],\"message\":\"\\\"\",\"line\":3," ++
      "\"category\":\"Error\",\"code\":1005\x7d"
    let x : Document := .array [.number ⟨false, ['1'], [], some ⟨false, ['4', '0', '0']⟩⟩,
      .text [.half 0xD800]]
    let stored : Members := [("message", .string "\""), ("line", .integer 3),
      ("category", .string "Error"), ("code", .integer 1005)]
    let ms := ("x", x) :: listed stored
    let ns := listed (members e.toJson)
    Lists s ms ∧ Lists e.render ns ∧ (∀ name ∈ fieldNames, given? name ms = given? name ns) ∧
      (Json.parse? s).isNone = true ∧ parse? s = some e ∧ parse? e.render = some e := by
  intro e s x stored ms ns
  have hnumber : SpellsTokens ['1', 'e', '4', '0', '0']
      [.number ⟨false, ['1'], [], some ⟨false, ['4', '0', '0']⟩⟩] :=
    spellsTokens_of_word (ofWord?_eq_some_iff.mp rfl)
  have hhalf : SpellsTokens ['"', '\\', 'u', 'd', '8', '0', '0', '"'] [.text [.half 0xD800]] :=
    .text (.unit (n := 0xD800) rfl .close) .nil
  have hx : SpellsTokens ['[', '1', 'e', '4', '0', '0', ',', '"', '\\', 'u', 'd', '8', '0', '0', '"',
      ']'] x.tokens :=
    .punctuation (c := '[') rfl
      ((hnumber.punctuated (c := ',') rfl hhalf).punctuated (c := ']') rfl .nil)
  have hstored : SpellsTokens (membersChars stored)
      (Document.entriesTokens (writtenMembers stored)) := by
    have hlegible : ∀ m ∈ stored, Legible 0 m.2 := by
      simp only [stored, List.forall_mem_cons]
      exact ⟨.string .., .integer _ ⟨by decide, by decide⟩, .string ..,
        .integer _ ⟨by decide, by decide⟩, List.forall_mem_nil _⟩
    exact spellsTokens_members fun m hm => spelledBy_chars (hlegible m hm)
  have hs : Lists s ms := by
    refine ⟨⟨(writtenText "x", x) :: writtenMembers stored, ?_, ?_⟩, by decide⟩
    · have hchars : s.toList = '\x7b' :: (quote "x" ++ ':' :: ['[', '1', 'e', '4', '0', '0', ',',
          '"', '\\', 'u', 'd', '8', '0', '0', '"', ']'] ++ ',' :: membersChars stored ++
          ['\x7d']) := by decide +kernel
      rw [hchars]
      exact .punctuation rfl (((((spellsTokens_text "x").punctuated rfl hx).punctuated
        (c := ',') rfl hstored)).punctuated rfl .nil)
    · rw [named?, List.mapM_cons, ← named?, named?_written, string?_writtenText]
      rfl
  have ht := e.lists_render
  have hgiven : ∀ name ∈ fieldNames, given? name ms = given? name ns := by
    simp only [fieldNames, List.forall_mem_cons]
    exact ⟨rfl, rfl, rfl, rfl, rfl, rfl, List.forall_mem_nil _⟩
  obtain ⟨hstore, hagain, -, hexact⟩ := parse?_render_exact
  have hread : parse? s = some e := (hexact s e.render ms ns hs ht hgiven).trans (hstore e)
  exact ⟨hs, ht, hgiven, by decide +kernel, hread, hagain s e hread⟩

end Rebuild.CompileError
