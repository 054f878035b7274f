import Rebuild.Proofs.Json.Parsed
import Rebuild.Proofs.Json.Writing
import Rebuild.Proofs.SourceMap.Comment

/-!
# Maps that are written again

A text that was rewritten carries a map in the place of the old one. This map
can be decoded like any other, and its only source is the one it was told.
-/

set_option autoImplicit false

namespace Rebuild.SourceMap

open Json

variable {output rewritten : String} {source : Path} {c : Comment} {payload : List Char}
  {members : Members}

def embedded (output : String) : Except SourceMapError Members :=
  match comment? output.toList with
  | none => .error .missingComment
  | some c => decode c.payload

theorem fromUTF8?_toUTF8 (s : String) : String.fromUTF8? s.toUTF8 = some s :=
  dif_pos s.isValidUTF8

theorem decode_legible (h : decode payload = .ok members) :
    Legible Document.maxDepth (.object members) := by
  rw [decode] at h
  split at h
  · cases h
  · split at h
    · cases h
    · rename_i hparse
      cases h
      obtain ⟨s, -, hs⟩ := Option.bind_eq_some_iff.mp hparse
      exact parse?_legible hs
    · cases h

theorem decode_encode (h : Legible Document.maxDepth (.object members)) :
    decode (encode members) = .ok (rereadMembers members) := by
  have hbytes : Base64.decode? (Text.trim (encode members)) =
      some (Json.object members).render.toUTF8.data.toList := by
    rw [encode, Text.trim_eq_self (Base64.isBlank_encode _), Base64.decode?_encode]
  have hparse : (String.fromUTF8? ⟨(Json.object members).render.toUTF8.data.toList.toArray⟩).bind
      parse? = some (.object (rereadMembers members)) := by
    rw [Array.toArray_toList, fromUTF8?_toUTF8, Option.bind_some, parse?_render h, reread]
  simp only [decode, hbytes, hparse]

theorem exists_of_rewrite (h : rewrite output source = .ok rewritten) :
    ∃ c members, comment? output.toList = some c ∧ decode c.payload = .ok members ∧
      rewritten = write c (withSource members source) := by
  rw [rewrite] at h
  split at h
  · cases h
  · rename_i c hc
    split at h
    · cases h
    · rename_i members hm
      cases h
      exact ⟨c, members, hc, hm, rfl⟩

theorem comment?_write (h : comment? output.toList = some c) (members : Members) :
    comment? (write c members).toList = some ⟨c.before, encode members, c.after⟩ := by
  rw [write, String.toList_ofList]
  exact comment?_written h (plain_encode _)

theorem embedded_encoded {before after : List Char}
    (h : comment? output.toList = some ⟨before, encode members, after⟩)
    (hmembers : Legible Document.maxDepth (.object members)) :
    embedded output = .ok (rereadMembers members) := by
  rw [embedded, h]
  exact decode_encode hmembers

theorem embedded_write (h : comment? output.toList = some c)
    (hmembers : Legible Document.maxDepth (.object members)) :
    embedded (write c members) = .ok (rereadMembers members) :=
  embedded_encoded (comment?_write h members) hmembers

theorem withSource_legible (h : decode payload = .ok members) (source : Path) :
    Legible Document.maxDepth (.object (withSource members source)) := by
  have hsources (room : Nat) : Legible (room + 1) (.array [.string (sourceText source)]) :=
    .array (List.forall_mem_singleton.mpr (.string room _))
  exact (decode_legible h).setMember "sources" (hsources _)

theorem embedded_rewrite (h : rewrite output source = .ok rewritten) :
    ∃ members, embedded rewritten = .ok members ∧
      member? "sources" members = some (.array [.string (sourceText source)]) := by
  obtain ⟨c, members, hc, hm, rfl⟩ := exists_of_rewrite h
  refine ⟨_, embedded_write hc (withSource_legible hm source), ?_⟩
  rw [member?_rereadMembers, withSource, member?_setMember]
  rfl

end Rebuild.SourceMap
