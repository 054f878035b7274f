import Rebuild.Proofs.SourceMap.Written

/-!
# Rewriting as a lens

Rewriting sets the source of the map in a text and leaves all else as it was.
The map is found again in the new text, with the new source. So rewriting a
text twice is rewriting it once, as long as the numbers of its map survive
being written.
-/

set_option autoImplicit false

namespace Rebuild

def Json.RoundTrips (v : Json) : Prop := Json.parse? v.render = some v

namespace SourceMap

open Json

variable {output rewritten : String} {source : Path} {c : Comment} {payload : List Char}
  {members : Members}

theorem roundTrips_iff (hm : decode payload = .ok members) :
    (Json.object (withSource members source)).RoundTrips ↔
      rereadMembers (withSource members source) = withSource members source := by
  rw [RoundTrips, parse?_render (withSource_legible hm source), reread, Option.some.injEq,
    Json.object.injEq]

theorem member?_withSource (key : String) (members : Members) (source : Path) :
    member? key (withSource members source) =
      if key = "sources" then some (.array [.string (sourceText source)])
      else member? key members := by
  rw [withSource]
  split
  · rename_i hkey
    rw [hkey, member?_setMember]
  · rename_i hkey
    exact member?_setMember_of_ne hkey _ _

theorem withSource_withSource (members : Members) (source other : Path) :
    withSource (withSource members source) other = withSource members other :=
  setMember_setMember ..

/-- Only the line of the last opening is rewritten. What is decoded from it has the new source and
all other members as they were, and rewriting it again is rewriting the first text. -/
theorem rewrite_lens (h : rewrite output source = .ok rewritten) :
    ∃ before line newLine after members,
      LastLine output.toList before line after ∧
      LastLine rewritten.toList before newLine after ∧
      embedded output = .ok members ∧
      embedded rewritten = .ok (rereadMembers (withSource members source)) ∧
      (∀ key, member? key (withSource members source) =
        if key = "sources" then some (.array [.string (sourceText source)])
        else member? key members) ∧
      ((Json.object (withSource members source)).RoundTrips →
        embedded rewritten = .ok (withSource members source) ∧
        ∀ other, rewrite rewritten other = rewrite output other) := by
  obtain ⟨c, members, hc, hm, rfl⟩ := exists_of_rewrite h
  have hwritten := comment?_write hc (withSource members source)
  have hembedded := embedded_write hc (withSource_legible hm source)
  obtain ⟨_, hcut, -⟩ := comment?_eq_some_iff.mp hc
  obtain ⟨_, hnew, -⟩ := comment?_eq_some_iff.mp hwritten
  refine ⟨_, _, _, _, members, hcut, hnew, ?_, hembedded,
    fun key => member?_withSource key members source, fun hround => ?_⟩
  · rw [embedded, hc]
    exact hm
  · have hsame := (roundTrips_iff hm).mp hround
    refine ⟨hembedded.trans (congrArg _ hsame), fun other => ?_⟩
    have hdecode : decode (encode (withSource members source)) =
        .ok (withSource members source) :=
      (decode_encode (withSource_legible hm source)).trans (congrArg _ hsame)
    rw [rewrite_of_comment? hwritten, rewrite_of_comment? hc, hdecode, hm]
    simp only [Except.map, withSource_withSource]
    rfl

/-- A map with a version, behind a parameter and with text around it. -/
theorem rewrite_lens_mapped :
    let output := "x\n//# sourceMappingURL=data:application/json;charset=ascii;base64," ++
      "eyJzb3VyY2VzIjpbIm9sZC5qcyJdLCJ2ZXJzaW9uIjozfQ==\ny"
    let rewritten := "x\n//# sourceMappingURL=data:application/json;charset=utf-8;base64," ++
      "eyJzb3VyY2VzIjpbImEvYi50cyJdLCJ2ZXJzaW9uIjozfQ==\ny"
    let mapOf (source : String) : Members :=
      [("sources", .array [.string source]), ("version", .integer 3)]
    rewrite output ⟨"a\\b.ts"⟩ = .ok rewritten ∧ embedded output = .ok (mapOf "old.js") ∧
      embedded rewritten = .ok (mapOf "a/b.ts") ∧
      ∀ other, rewrite rewritten other = rewrite output other := by
  intro output rewritten mapOf
  have hrewrite : rewrite output ⟨"a\\b.ts"⟩ = .ok rewritten := by decide +kernel
  have hlegible : Legible Document.maxDepth (.object (mapOf "old.js")) := by
    refine .object (by simp only [mapOf, Ascending]; decide) ?_
    simp only [mapOf, List.forall_mem_cons]
    exact ⟨.array (List.forall_mem_singleton.mpr (.string ..)),
      .integer _ ⟨by decide, by decide⟩, List.forall_mem_nil _⟩
  have hcomment : comment? output.toList =
      some ⟨['x', '\n'], encode (mapOf "old.js"), ['\n', 'y']⟩ := by decide +kernel
  have hdecode : decode (encode (mapOf "old.js")) = .ok (mapOf "old.js") := decode_encode hlegible
  have hold : embedded output = .ok (mapOf "old.js") := embedded_encoded hcomment hlegible
  obtain ⟨_, _, _, _, members, -, -, hembedded, -, -, hlens⟩ := rewrite_lens hrewrite
  obtain rfl : mapOf "old.js" = members := Except.ok.inj (hold.symm.trans hembedded)
  obtain ⟨hnew, hagain⟩ := hlens ((roundTrips_iff hdecode).mpr rfl)
  exact ⟨hrewrite, hold, hnew, hagain⟩

end SourceMap

end Rebuild
