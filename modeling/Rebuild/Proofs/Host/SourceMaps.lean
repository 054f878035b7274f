import Rebuild.Proofs.Host.Retries
import Rebuild.Proofs.Output.Views
import Rebuild.Proofs.SourceMap.Source
import Rebuild.Proofs.SourceMap.Written
import Rebuild.Service.Scripted

/-!
# Source maps of delivered outputs

The map of an output that is handed over names the source the output was asked
for, by the way from the base directory. The name leads back to the source
unless it has a backslash, which is taken for a separator.
-/

set_option autoImplicit false

namespace Rebuild.Host

open CanonicalPath

variable {σ H : Type} {h : Host σ H} {disk : Disk} {file : Path} {source : CanonicalPath}
  {data : ByteArray} {text rewritten : String}

def wayTo (h : Host σ H) (source : CanonicalPath) : Path :=
  source.relativeTo h.config.sourceMapBase

theorem retrieve_output? (hfailed : h.failed = false) (hdata : h.output? file = some data) :
    (h.retrieve disk file).1 = .ok (h.deliver (h.cache.canonicalize file) data) := by
  have hkey : h.keyOf file ∈ h.outputs :=
    Std.TreeMap.isSome_getElem?_iff_mem.mp (by rw [keyOf, ← output?, hdata]; rfl)
  rw [h.retrieve_known disk file hfailed (h.known_of_mem hkey), stored, hdata]

theorem deliver_rewritten (hinline : h.config.compiler.inlineSourceMap = true)
    (htext : String.fromUTF8? data = some text)
    (hok : h.rewriter text (h.wayTo source) = .ok rewritten) :
    h.deliver source data = rewritten.toUTF8 := by
  rw [wayTo] at hok
  simp only [deliver, hinline, Bool.not_true, Bool.false_eq_true, if_false, htext, hok]

/-- The map of a delivered output has one source. Its name leads from the base directory to the
source that the output was asked for if there is no backslash on the way, and only then. -/
theorem retrieved_source (h : Host σ H) (disk : Disk) (file : Path)
    (hbase : h.config.sourceMapBase.rooted = true)
    (hfile : (h.cache.canonicalize file).rooted = true)
    (hinline : h.config.compiler.inlineSourceMap = true)
    (hrewriter : h.rewriter = SourceMap.rewrite) (hfailed : h.failed = false)
    (data : ByteArray) (hdata : h.output? file = some data)
    (text : String) (htext : String.fromUTF8? data = some text) (rewritten : String)
    (hok : SourceMap.rewrite text (h.wayTo (h.cache.canonicalize file)) = .ok rewritten) :
    let source := h.cache.canonicalize file
    (h.retrieve disk file).1 = .ok rewritten.toUTF8 ∧
    ∃ members name, SourceMap.embedded rewritten = .ok members ∧
      Json.member? "sources" members = some (.array [.string name]) ∧
      (h.config.sourceMapBase.join ⟨name⟩ = source ↔ '\\' ∉ (h.wayTo source).text.toList) := by
  intro source
  obtain ⟨members, hembedded, hsources⟩ := SourceMap.embedded_rewrite hok
  refine ⟨?_, members, _, hembedded, hsources, ?_⟩
  · rw [retrieve_output? hfailed hdata, deliver_rewritten hinline htext (hrewriter ▸ hok)]
  · exact SourceMap.join_sourceText_iff hbase hfile

def mapped (output : String) : Host Scripted.Stage Scripted.Stamp :=
  let code := "x\n//# sourceMappingURL=data:application/json;base64,e30="
  let script := { Scripted.Script.blank with
    emission := .ofWrites [(⟨output⟩, code.toUTF8)] [] false }
  let config := ResolvedConfig.default ⟨"/"⟩
  let start := ofService (Scripted.service [script]) .empty
    { config with compiler := { config.compiler with inlineSourceMap := true } }
  (start.compile .empty).2

theorem retrieved_source_plain :
    let h := mapped "a.js"
    let file : Path := ⟨"a.ts"⟩
    let rewritten := "x\n//# sourceMappingURL=data:application/json;charset=utf-8;base64," ++
      "eyJzb3VyY2VzIjpbImEudHMiXX0="
    (h.retrieve .empty file).1 = .ok rewritten.toUTF8 ∧
    ∃ members name, SourceMap.embedded rewritten = .ok members ∧
      Json.member? "sources" members = some (.array [.string name]) ∧
      h.config.sourceMapBase.join ⟨name⟩ = h.cache.canonicalize file := by
  intro h file rewritten
  obtain ⟨hanswer, members, name, hembedded, hsources, hjoin⟩ :=
    h.retrieved_source .empty file (by decide +kernel) (by decide +kernel) (by decide +kernel) rfl
      (by decide +kernel)
      "x\n//# sourceMappingURL=data:application/json;base64,e30=".toUTF8 (by decide +kernel)
      _ (SourceMap.fromUTF8?_toUTF8 _) rewritten (by decide +kernel)
  exact ⟨hanswer, members, name, hembedded, hsources, hjoin.mpr (by decide +kernel)⟩

/-- The map of an output with a backslash in its name. It names a file in another directory. -/
theorem retrieved_source_backslash :
    let h := mapped "a\\b.js"
    let file : Path := ⟨"a\\b.ts"⟩
    let rewritten := "x\n//# sourceMappingURL=data:application/json;charset=utf-8;base64," ++
      "eyJzb3VyY2VzIjpbImEvYi50cyJdfQ=="
    (h.retrieve .empty file).1 = .ok rewritten.toUTF8 ∧
      SourceMap.embedded rewritten = .ok [("sources", .array [.string "a/b.ts"])] ∧
      h.config.sourceMapBase.join ⟨"a/b.ts"⟩ ≠ h.cache.canonicalize file := by
  intro h file rewritten
  have hlegible : Json.Legible Json.Document.maxDepth
      (.object [("sources", .array [.string "a/b.ts"])]) :=
    .object (List.pairwise_singleton ..)
      (List.forall_mem_singleton.mpr (.array (List.forall_mem_singleton.mpr (.string ..))))
  have hcomment : SourceMap.comment? rewritten.toList =
      some ⟨['x', '\n'], SourceMap.encode [("sources", .array [.string "a/b.ts"])], []⟩ := by
    decide +kernel
  exact ⟨by decide +kernel, SourceMap.embedded_encoded hcomment hlegible, by decide +kernel⟩

end Rebuild.Host
