import Mathlib.Data.List.DropRight
import Rebuild.Proofs.Source.Lookup

/-!
# Places from bytes

The characters of a text are stored as one to four bytes each. A byte belongs
to the character whose encoding it lies in, so the place of a byte is found by
going back to the boundary in front of that character and counting what stands
there. Line and column of such a place can be read off the bytes themselves:
no byte of a longer encoding is a newline.
-/

set_option autoImplicit false

namespace Rebuild

open String (utf8EncodeChar)

/-! ## Encodings -/

def encoded (cs : List Char) : List UInt8 := cs.flatMap utf8EncodeChar

def newlineByte : UInt8 := 10

@[simp] theorem encoded_append (cs ds : List Char) :
    encoded (cs ++ ds) = encoded cs ++ encoded ds := List.flatMap_append

theorem encoded_singleton (c : Char) : encoded [c] = utf8EncodeChar c := List.append_nil _

theorem toUTF8_data (text : String) : text.toUTF8.data.toList = encoded text.toList := by
  show text.toByteArray.data.toList = _
  rw [← String.utf8Encode_toList]
  unfold List.utf8Encode
  rw [List.data_toByteArray, List.toList_toArray]
  rfl

theorem size_ofList (cs : List Char) : (String.ofList cs).utf8ByteSize = (encoded cs).length := by
  rw [← String.size_toByteArray, String.toByteArray_ofList]
  unfold List.utf8Encode
  rw [List.size_toByteArray]
  rfl

theorem encode_newline : utf8EncodeChar '\n' = [newlineByte] := by decide

theorem eq_newline_of_mem {c : Char} (h : newlineByte ∈ utf8EncodeChar c) : c = '\n' := by
  have hbyte (n : Nat) (hn : newlineByte = UInt8.ofNat n) : n % 256 = 10 :=
    (congrArg UInt8.toNat hn).symm
  apply Char.ext
  apply UInt32.toNat_inj.mp
  show c.val.toNat = 10
  unfold utf8EncodeChar at h
  dsimp only at h
  split at h
  · have hsingle := hbyte _ (List.mem_singleton.mp h)
    omega
  · -- The bytes of longer encodings are 128 or more.
    split at h
    · simp only [List.mem_cons, List.not_mem_nil, or_false] at h
      rcases h with h | h <;> have hlarge := hbyte _ h <;> omega
    · split at h
      · simp only [List.mem_cons, List.not_mem_nil, or_false] at h
        rcases h with h | h | h <;> have hlarge := hbyte _ h <;> omega
      · simp only [List.mem_cons, List.not_mem_nil, or_false] at h
        rcases h with h | h | h | h <;> have hlarge := hbyte _ h <;> omega

theorem count_encoded (cs : List Char) : (encoded cs).count newlineByte = cs.count '\n' := by
  induction cs using List.reverseRecOn with
  | nil => rfl
  | append_singleton cs c ih =>
    rw [encoded_append, encoded_singleton, List.count_append, List.count_append, ih]
    by_cases hc : c = '\n'
    · rw [hc, encode_newline, List.count_singleton_self, List.count_singleton_self]
    · rw [List.count_eq_zero.mpr (mt eq_newline_of_mem hc), List.count_singleton,
        if_neg (by simpa using hc)]

theorem rdropWhile_append {α : Type} [DecidableEq α] {a : α} (front : List α) {back : List α}
    (h : a ∉ back) : (front ++ back).rdropWhile (· ≠ a) = front.rdropWhile (· ≠ a) := by
  induction back using List.reverseRecOn with
  | nil => rw [List.append_nil]
  | append_singleton back b ih =>
    rw [List.mem_append, List.mem_singleton, not_or] at h
    rw [← List.append_assoc, List.rdropWhile_concat_pos _ _ _ (by simpa using Ne.symm h.2)]
    exact ih h.1

theorem rdropWhile_encoded (cs : List Char) :
    (encoded cs).rdropWhile (· ≠ newlineByte) = encoded (cs.rdropWhile (· ≠ '\n')) := by
  induction cs using List.reverseRecOn with
  | nil => rfl
  | append_singleton cs c ih =>
    rw [encoded_append, encoded_singleton]
    by_cases hc : c = '\n'
    · rw [hc, encode_newline, List.rdropWhile_concat_neg _ _ _ (by simp),
        List.rdropWhile_concat_neg _ _ _ (by simp), encoded_append, encoded_singleton,
        encode_newline]
    · rw [rdropWhile_append _ (mt eq_newline_of_mem hc), ih,
        List.rdropWhile_concat_pos _ _ _ (by simpa using hc)]

/-! ## Where characters start -/

def startByte (cs : List Char) (place : Nat) : Nat := (encoded (cs.take place)).length

variable {cs : List Char} {byte place : Nat}

theorem startByte_zero (cs : List Char) : startByte cs 0 = 0 := by
  rw [startByte, List.take_zero]
  rfl

theorem startByte_length (text : String) :
    startByte text.toList text.length = text.utf8ByteSize := by
  rw [startByte, ← String.length_toList, List.take_length, ← size_ofList, String.ofList_toList]

theorem startByte_succ {c : Char} (h : cs[place]? = some c) :
    startByte cs (place + 1) = startByte cs place + c.utf8Size := by
  rw [startByte, List.take_add_one, h, Option.toList_some, encoded_append, encoded_singleton,
    List.length_append, String.length_utf8EncodeChar, startByte]

theorem startByte_lt_succ (h : place < cs.length) :
    startByte cs place < startByte cs (place + 1) := by
  rw [startByte_succ (List.getElem?_eq_getElem h)]
  have hsize := cs[place].utf8Size_pos
  omega

theorem startByte_mono (cs : List Char) {i j : Nat} (h : i ≤ j) :
    startByte cs i ≤ startByte cs j := by
  rw [startByte, startByte, ← List.take_append_drop i (cs.take j), List.take_take,
    Nat.min_eq_left h, encoded_append, List.length_append]
  omega

/-- A byte lies on a character, or behind the last one. The characters in front of the place lie
wholly in front of the byte, and the next one does not. -/
structure LiesOn (cs : List Char) (byte place : Nat) : Prop where
  inside : place ≤ cs.length
  before : startByte cs place ≤ byte
  behind : place < cs.length → byte < startByte cs (place + 1)

namespace LiesOn

theorem whole_iff (h : LiesOn cs byte place) {k : Nat} (hk : k < cs.length) :
    startByte cs (k + 1) ≤ byte ↔ k < place := by
  constructor
  · intro hwhole
    by_contra hge
    have hbehind := h.behind (by omega)
    have hmono := startByte_mono cs (show place + 1 ≤ k + 1 by omega)
    omega
  · intro hlt
    exact Nat.le_trans (startByte_mono cs hlt) h.before

theorem mono {a b i j : Nat} (ha : LiesOn cs a i) (hb : LiesOn cs b j) (h : a ≤ b) : i ≤ j := by
  by_contra hlt
  have hwhole := (ha.whole_iff (k := j) (by have := ha.inside; omega)).mpr (by omega)
  have hbehind := hb.behind (by have := ha.inside; omega)
  omega

theorem unique {i j : Nat} (hi : LiesOn cs byte i) (hj : LiesOn cs byte j) : i = j :=
  Nat.le_antisymm (hi.mono hj (Nat.le_refl _)) (hj.mono hi (Nat.le_refl _))

theorem take_encoded (h : LiesOn cs byte place) :
    ∃ part, (encoded cs).take byte = encoded (cs.take place) ++ part ∧ newlineByte ∉ part := by
  have hsplit : encoded cs = encoded (cs.take place) ++ encoded (cs.drop place) := by
    rw [← encoded_append, List.take_append_drop]
  refine ⟨(encoded (cs.drop place)).take (byte - startByte cs place), ?_, ?_⟩
  · rw [hsplit, List.take_append, List.take_of_length_le h.before]
    rfl
  · by_cases hlast : place < cs.length
    · have hbefore := h.before
      have hbehind := h.behind hlast
      rw [startByte_succ (List.getElem?_eq_getElem hlast)] at hbehind
      have hpart : byte - startByte cs place < (utf8EncodeChar cs[place]).length := by
        rw [String.length_utf8EncodeChar]
        omega
      rw [List.drop_eq_getElem_cons hlast, ← List.singleton_append, encoded_append,
        encoded_singleton, List.take_append_of_le_length (Nat.le_of_lt hpart)]
      intro hmem
      have hnewline := eq_newline_of_mem (List.mem_of_mem_take hmem)
      rw [hnewline, encode_newline, List.length_singleton, Nat.lt_one_iff] at hpart
      rw [hpart, List.take_zero] at hmem
      exact List.not_mem_nil hmem
    · rw [List.drop_of_length_le (by omega)]
      simp [encoded]

end LiesOn

/-! ## The way back to a boundary -/

theorem isValid_iff (text : String) (byte : Nat) :
    String.Pos.Raw.IsValid text ⟨byte⟩ ↔
      ∃ place ≤ text.toList.length, startByte text.toList place = byte := by
  rw [String.Pos.Raw.isValid_iff_exists_take_toList]
  constructor
  · rintro ⟨i, hi⟩
    refine ⟨min i text.toList.length, Nat.min_le_right .., ?_⟩
    rw [startByte, ← List.take_eq_take_min, ← size_ofList]
    exact hi.symm
  · rintro ⟨place, -, hplace⟩
    refine ⟨place, ?_⟩
    rw [size_ofList]
    exact hplace.symm

/-- The loop stops in front of the character that the byte lies on. A byte that it goes back from
lies on the same character as the one before, and the start of the text is a boundary. -/
theorem boundary_liesOn (text : String) (byte : Nat) :
    byte ≤ text.utf8ByteSize → ∃ place, LiesOn text.toList byte place ∧
      (boundary text byte).offset.byteIdx = startByte text.toList place := by
  induction byte with
  | zero =>
    intro _
    refine ⟨0, ⟨Nat.zero_le _, ?_, fun hlast => ?_⟩, ?_⟩
    · rw [startByte_zero]
    · have hstart := startByte_lt_succ hlast
      rwa [startByte_zero] at hstart
    · rw [startByte_zero]
      rfl
  | succ byte ih =>
    intro hbyte
    rw [boundary]
    split
    · rename_i hvalid
      obtain ⟨place, hinside, hplace⟩ := (isValid_iff text (byte + 1)).mp hvalid
      refine ⟨place, ⟨hinside, Nat.le_of_eq hplace, fun hlast => ?_⟩, hplace.symm⟩
      rw [← hplace]
      exact startByte_lt_succ hlast
    · rename_i hvalid
      obtain ⟨place, hlies, hoffset⟩ := ih (by omega)
      refine ⟨place, ⟨hlies.inside, ?_, fun hlast => ?_⟩, hoffset⟩
      · exact Nat.le_succ_of_le hlies.before
      · have hbehind := hlies.behind hlast
        have hne : startByte text.toList (place + 1) ≠ byte + 1 := fun heq =>
          hvalid ((isValid_iff text (byte + 1)).mpr ⟨place + 1, hlast, heq⟩)
        omega

theorem extract_boundary {text : String} {p : text.Pos} {place : Nat}
    (h : p.offset.byteIdx = startByte text.toList place) :
    text.extract text.startPos p = String.ofList (text.toList.take place) := by
  have hsplits : p.Splits (String.ofList (text.toList.take place))
      (String.ofList (text.toList.drop place)) := by
    constructor
    · rw [← String.ofList_append, List.take_append_drop, String.ofList_toList]
    · apply String.Pos.Raw.ext
      rw [h, startByte, ← size_ofList]
      rfl
  apply String.toByteArray_inj.mp
  rw [hsplits.toByteArray_left_eq]
  rfl

namespace SourceFile

open LineIndex

variable {f : SourceFile}

theorem charOffset_liesOn (h : f.content.length < UInt32.size) (byte : Nat) :
    LiesOn f.content.toList byte (f.charOffset byte).toNat := by
  obtain ⟨place, hlies, hoffset⟩ :=
    boundary_liesOn f.content (min byte f.content.utf8ByteSize) (Nat.min_le_right ..)
  have hinside : place ≤ f.content.length := hlies.inside
  have hplace : (f.charOffset byte).toNat = place := by
    rw [charOffset, extract_boundary hoffset, String.length_ofList, List.length_take,
      String.length_toList, Nat.min_eq_left hinside]
    exact UInt32.toNat_ofNat_of_lt' (by omega)
  rw [hplace]
  refine ⟨hinside, Nat.le_trans hlies.before (Nat.min_le_left ..), fun hlast => ?_⟩
  have hbehind := hlies.behind hlast
  have hend := startByte_mono f.content.toList (show place + 1 ≤ f.content.toList.length from hlast)
  rw [String.length_toList, startByte_length] at hend
  omega

theorem countP_range (n low high : Nat) :
    (List.range n).countP (fun k => low ≤ k ∧ k < high) = min high n - low := by
  induction n with
  | zero => simp
  | succ n ih =>
    rw [List.range_succ, List.countP_append, ih, List.countP_singleton]
    by_cases hn : low ≤ n ∧ n < high
    · rw [if_pos (by simpa using hn)]
      omega
    · rw [if_neg (by simpa using hn)]
      omega

theorem charOffset_whole (h : f.content.length < UInt32.size) (byte : Nat) :
    (f.charOffset byte).toNat =
      (List.range f.content.length).countP
        (fun k => startByte f.content.toList (k + 1) ≤ byte) := by
  have hlies := charOffset_liesOn h byte
  have hinside : (f.charOffset byte).toNat ≤ f.content.length := hlies.inside
  have hcount := countP_range f.content.length 0 (f.charOffset byte).toNat
  rw [Nat.min_eq_left hinside, Nat.sub_zero] at hcount
  rw [← hcount]
  apply List.countP_congr
  intro k hk
  have hiff := hlies.whole_iff (k := k) (List.mem_range.mp hk)
  simpa using hiff.symm

def lineByte (before : List UInt8) : Nat := (before.rdropWhile (· ≠ newlineByte)).length

theorem tailLength_eq (front : List Char) :
    tailLength front = front.length - (front.rdropWhile (· ≠ '\n')).length := by
  have hparts : (front.rdropWhile (· ≠ '\n') ++ front.rtakeWhile (· ≠ '\n')).length =
      front.length := by rw [List.rdropWhile_append_rtakeWhile]
  rw [List.length_append, List.rtakeWhile, List.length_reverse] at hparts
  rw [tailLength]
  omega

theorem tailLength_whole {cs : List Char} {byte place : Nat} (h : LiesOn cs byte place) :
    tailLength (cs.take place) =
      (List.range cs.length).countP (fun k =>
        lineByte ((encoded cs).take byte) ≤ startByte cs k ∧ startByte cs (k + 1) ≤ byte) := by
  obtain ⟨part, hpart, hnewline⟩ := h.take_encoded
  have hinside := h.inside
  generalize hline : (cs.take place).rdropWhile (· ≠ '\n') = line
  have hprefix : line <+: cs := by
    rw [← hline]
    exact (List.rdropWhile_prefix _ _).trans (List.take_prefix ..)
  have hshort : line.length ≤ cs.length := hprefix.length_le
  have hbyte : lineByte ((encoded cs).take byte) = startByte cs line.length := by
    rw [lineByte, hpart, rdropWhile_append _ hnewline, rdropWhile_encoded, hline, startByte,
      ← List.prefix_iff_eq_take.mp hprefix]
  have hstart (k : Nat) (hk : k < cs.length) :
      startByte cs line.length ≤ startByte cs k ↔ line.length ≤ k := by
    constructor
    · intro hle
      by_contra hlt
      have hstep := startByte_lt_succ hk
      have hmono := startByte_mono cs (show k + 1 ≤ line.length by omega)
      omega
    · exact startByte_mono cs
  have hcount := countP_range cs.length line.length place
  rw [Nat.min_eq_left hinside] at hcount
  rw [tailLength_eq, hline, List.length_take, Nat.min_eq_left hinside, ← hcount, hbyte]
  apply List.countP_congr
  intro k hk
  have hlast := List.mem_range.mp hk
  simp [hstart k hlast, h.whole_iff hlast]

/-- A byte of a text, inside, at or past its end, has as its place the number of characters that
lie wholly in front of it. Places grow with bytes, all bytes of a character have the place of the
character, and past the end it is the number of all characters. Line and column of the place are
counted in the bytes in front: one more than the newline bytes, and one more than the whole
characters between the last of these and the byte. -/
theorem charOffset_counts (f : SourceFile) (h : f.content.length < UInt32.size - 1) :
    (∀ byte, (f.charOffset byte).toNat =
      (List.range f.content.length).countP
        (fun k => startByte f.content.toList (k + 1) ≤ byte)) ∧
    (∀ a b, a ≤ b → f.charOffset a ≤ f.charOffset b) ∧
    (∀ k < f.content.length, ∀ byte, startByte f.content.toList k ≤ byte →
      byte < startByte f.content.toList (k + 1) → (f.charOffset byte).toNat = k) ∧
    (∀ byte, f.content.toUTF8.size ≤ byte →
      (f.charOffset byte).toNat = f.content.length) ∧
    ∀ byte,
      let before := f.content.toUTF8.data.toList.take byte
      (f.lineColumn (f.charOffset byte)).1.toNat = 1 + before.count newlineByte ∧
      (f.lineColumn (f.charOffset byte)).2.toNat = 1 +
        (List.range f.content.length).countP (fun k =>
          lineByte before ≤ startByte f.content.toList k ∧
            startByte f.content.toList (k + 1) ≤ byte) := by
  have hfits : f.content.length < UInt32.size := by omega
  have hlies := charOffset_liesOn hfits
  refine ⟨charOffset_whole hfits, ?_, ?_, ?_, ?_⟩
  · intro a b hab
    rw [UInt32.le_iff_toNat_le]
    exact (hlies a).mono (hlies b) hab
  · intro k hk byte hstart hend
    exact (hlies byte).unique ⟨Nat.le_of_lt hk, hstart, fun _ => hend⟩
  · intro byte hbyte
    refine (hlies byte).unique ⟨Nat.le_refl _, ?_, fun hlast => absurd hlast (Nat.lt_irrefl _)⟩
    rw [startByte_length]
    exact hbyte
  · intro byte before
    have hinside : (f.charOffset byte).toNat ≤ f.content.length := (hlies byte).inside
    have hfront : f.front (f.charOffset byte) =
        f.content.toList.take (f.charOffset byte).toNat := by
      rw [front, Nat.min_eq_left hinside]
    have hbefore : before = (encoded f.content.toList).take byte := by
      rw [← toUTF8_data]
    obtain ⟨part, hpart, hnewline⟩ := (hlies byte).take_encoded
    obtain ⟨hline, hcolumn, -⟩ := lineColumn_exact h (f.charOffset byte)
    constructor
    · rw [hline, hfront, hbefore, hpart, List.count_append, count_encoded,
        List.count_eq_zero.mpr hnewline, Nat.add_zero]
    · rw [hcolumn, hfront, hbefore, tailLength_whole (hlies byte), String.length_toList]

theorem charOffset_counts_wide :
    let f : SourceFile := ⟨⟨"a.ts"⟩, "x\né = 1"⟩
    f.content.length < UInt32.size - 1 ∧ f.charOffset 2 = 2 ∧ f.charOffset 3 = 2 ∧
      f.charOffset 4 = 3 ∧ f.charOffset 99 = 7 ∧ f.lineColumn (f.charOffset 4) = (2, 2) := by
  intro f
  have h : f.content.length < UInt32.size - 1 := by decide
  obtain ⟨-, -, hchar, hend, hplace⟩ := charOffset_counts f h
  obtain ⟨hline, hcolumn⟩ := hplace 4
  have hlength : f.content.length = 7 := by decide
  refine ⟨h, ?_, ?_, ?_, ?_, ?_⟩
  · exact UInt32.toNat_inj.mp (hchar 2 (by decide) 2 (by decide) (by decide))
  · exact UInt32.toNat_inj.mp (hchar 2 (by decide) 3 (by decide) (by decide))
  · exact UInt32.toNat_inj.mp (hchar 3 (by decide) 4 (by decide) (by decide))
  · exact UInt32.toNat_inj.mp ((hend 99 (by decide)).trans hlength)
  · apply Prod.ext
    · exact UInt32.toNat_inj.mp (hline.trans (by decide))
    · exact UInt32.toNat_inj.mp (hcolumn.trans (by decide))

end SourceFile

end Rebuild
