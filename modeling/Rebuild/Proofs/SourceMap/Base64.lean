import Rebuild.SourceMap.Base64
import Rebuild.Text.Blank

/-!
# Base64 reads back

Whatever bytes are encoded, decoding gives them back. The characters that are
written are those of the alphabet and the padding.
-/

set_option autoImplicit false

namespace Rebuild.Base64

theorem character_ne_padding : ∀ n < 64, character n ≠ '=' := by decide

theorem ofNat_eq {n : Nat} {a : UInt8} (h : n % 256 = a.toNat) : UInt8.ofNat n = a := by
  rw [← UInt8.toNat_inj, UInt8.toNat_ofNat', ← h]

/-! ## Groups -/

theorem decodeThree?_triple (a b c : UInt8) :
    let n := a.toNat * 65536 + b.toNat * 256 + c.toNat
    decodeThree? (character (n / 262144)) (character (n / 4096 % 64)) (character (n / 64 % 64))
      (character (n % 64)) = some [a, b, c] := by
  intro n
  have ha := a.toNat_lt
  have hb := b.toNat_lt
  have hc := c.toNat_lt
  have hn : ((n / 262144 * 64 + n / 4096 % 64) * 64 + n / 64 % 64) * 64 + n % 64 = n := by omega
  simp only [decodeThree?, value?_character (n / 262144) (by omega),
    value?_character _ (Nat.mod_lt _ (by decide : 64 > 0)), Option.bind_eq_bind, Option.bind_some,
    hn]
  rw [ofNat_eq (a := a) (by omega), ofNat_eq (a := b) (by omega), ofNat_eq (a := c) (by omega)]

theorem decodeTwo?_pair (a b : UInt8) :
    let n := a.toNat * 1024 + b.toNat * 4
    decodeTwo? (character (n / 4096)) (character (n / 64 % 64)) (character (n % 64)) =
      some [a, b] := by
  intro n
  have ha := a.toNat_lt
  have hb := b.toNat_lt
  have hn : (n / 4096 * 64 + n / 64 % 64) * 64 + n % 64 = n := by omega
  simp only [decodeTwo?, value?_character (n / 4096) (by omega),
    value?_character _ (Nat.mod_lt _ (by decide : 64 > 0)), Option.bind_eq_bind, Option.bind_some,
    hn]
  rw [if_pos (by omega), ofNat_eq (a := a) (by omega), ofNat_eq (a := b) (by omega)]

theorem decodeOne?_single (a : UInt8) :
    let n := a.toNat * 16
    decodeOne? (character (n / 64)) (character (n % 64)) = some [a] := by
  intro n
  have ha := a.toNat_lt
  have hn : n / 64 * 64 + n % 64 = n := by omega
  simp only [decodeOne?, value?_character (n / 64) (by omega),
    value?_character _ (Nat.mod_lt _ (by decide : 64 > 0)), Option.bind_eq_bind, Option.bind_some,
    hn]
  rw [if_pos (by omega), ofNat_eq (a := a) (by omega)]

theorem decode?_group {a b c d : Char} (hd : d ≠ '=') {group bytes : List UInt8}
    {rest : List Char} (hgroup : decodeThree? a b c d = some group)
    (hrest : decode? rest = some bytes) :
    decode? (a :: b :: c :: d :: rest) = some (group ++ bytes) := by
  cases rest with
  | nil =>
    cases hrest
    rw [decode?, if_neg hd, hgroup, List.append_nil]
  | cons e rest =>
    rw [decode?, hgroup, hrest]
    · rfl
    · simp

/-! ## Whole texts -/

theorem decode?_encode (bytes : List UInt8) : decode? (encode bytes) = some bytes := by
  induction bytes using encode.induct with
  | case1 a b c rest ih =>
    rw [encode]
    exact decode?_group (character_ne_padding _ (Nat.mod_lt _ (by decide)))
      (decodeThree?_triple a b c) ih
  | case2 a b =>
    rw [encode, decode?, if_pos rfl,
      if_neg (character_ne_padding _ (Nat.mod_lt _ (by decide)))]
    exact decodeTwo?_pair a b
  | case3 a =>
    rw [encode, decode?, if_pos rfl, if_pos rfl]
    exact decodeOne?_single a
  | case4 => rfl

theorem mem_encode {bytes : List UInt8} {c : Char} (hc : c ∈ encode bytes) :
    c = '=' ∨ ∃ n < 64, c = character n := by
  induction bytes using encode.induct with
  | case1 a b d rest ih =>
    have ha := a.toNat_lt
    have hb := b.toNat_lt
    have hd := d.toNat_lt
    rw [encode] at hc
    simp only [List.mem_cons] at hc
    rcases hc with rfl | rfl | rfl | rfl | hc
    · exact Or.inr ⟨_, by omega, rfl⟩
    · exact Or.inr ⟨_, by omega, rfl⟩
    · exact Or.inr ⟨_, by omega, rfl⟩
    · exact Or.inr ⟨_, by omega, rfl⟩
    · exact ih hc
  | case2 a b =>
    have ha := a.toNat_lt
    have hb := b.toNat_lt
    rw [encode] at hc
    simp only [List.mem_cons, List.not_mem_nil, or_false] at hc
    rcases hc with rfl | rfl | rfl | rfl
    · exact Or.inr ⟨_, by omega, rfl⟩
    · exact Or.inr ⟨_, by omega, rfl⟩
    · exact Or.inr ⟨_, by omega, rfl⟩
    · exact Or.inl rfl
  | case3 a =>
    have ha := a.toNat_lt
    rw [encode] at hc
    simp only [List.mem_cons, List.not_mem_nil, or_false] at hc
    rcases hc with rfl | rfl | rfl | rfl
    · exact Or.inr ⟨_, by omega, rfl⟩
    · exact Or.inr ⟨_, by omega, rfl⟩
    · exact Or.inl rfl
    · exact Or.inl rfl
  | case4 => cases hc

theorem forall_mem_encode {P : Char → Prop} (hpadding : P '=') (hcharacter : ∀ n < 64, P (character n))
    (bytes : List UInt8) : ∀ c ∈ encode bytes, P c := by
  intro c hc
  rcases mem_encode hc with rfl | ⟨n, hn, rfl⟩
  · exact hpadding
  · exact hcharacter n hn

theorem isBlank_encode (bytes : List UInt8) : ∀ c ∈ encode bytes, Text.isBlank c = false :=
  forall_mem_encode (by decide) (by decide) bytes

end Rebuild.Base64
