import Rebuild.Proofs.Output.Views
import Rebuild.Proofs.Path.Resolving

/-!
# Resolved directories

Resolving a configuration makes its directories normal, whatever texts stand
in it and whichever are missing. A configuration that names the resolved
directories is resolved to them from everywhere.
-/

set_option autoImplicit false

namespace Rebuild

structure ResolvedConfig.Normal (r : ResolvedConfig) : Prop where
  currentDir : r.currentDir.toPath.IsNormal
  rootDir : r.rootDir.toPath.IsNormal
  outDir : r.outDir.toPath.IsNormal
  sourceMapBase : r.sourceMapBase.toPath.IsNormal

theorem ResolvedConfig.Anchored.normal {r : ResolvedConfig} (h : r.Anchored) : r.Normal where
  currentDir := Path.isNormal_iff.mpr ⟨_, h.currentDir, rfl⟩
  rootDir := Path.isNormal_iff.mpr ⟨_, h.rootDir, rfl⟩
  outDir := Path.isNormal_iff.mpr ⟨_, h.outDir, rfl⟩
  sourceMapBase := Path.isNormal_iff.mpr ⟨_, h.sourceMapBase, rfl⟩

theorem CanonicalPath.join_toPath_of_rooted (dir : CanonicalPath) {p : CanonicalPath}
    (h : p.rooted = true) : dir.join p.toPath = p := by
  rw [join_toPath, if_pos h]

namespace Config

/-- The configuration with every directory replaced by a resolved one. -/
def pinned (c : Config) (r : ResolvedConfig) : Config :=
  { c with
    paths :=
      { currentDir := some r.currentDir.toPath
        rootDir := some r.rootDir.toPath
        outDir := some r.outDir.toPath
        sourceMapBase := some r.sourceMapBase.toPath } }

theorem resolve_pinned (c : Config) {r : ResolvedConfig} (h : r.Anchored) (processDir : Path) :
    (c.pinned r).resolve processDir =
      { r with compiler := c.compiler, dependencyDir := c.dependencyDir } := by
  have hcurrent : r.currentDir.toPath.canonicalize processDir = r.currentDir :=
    CanonicalPath.join_toPath_of_rooted _ h.currentDir
  simp only [resolve, pinned, Option.getD_some, Option.map_some, hcurrent,
    CanonicalPath.join_toPath_of_rooted _ h.rootDir, CanonicalPath.join_toPath_of_rooted _ h.outDir,
    CanonicalPath.join_toPath_of_rooted _ h.sourceMapBase]

/-- The directories of a resolved configuration are normal, and once they stand in the
configuration they no longer depend on where the process runs. -/
theorem resolve_stable (c : Config) {processDir : Path} (h : processDir.isAbsolute = true) :
    (c.resolve processDir).Normal ∧
    ∀ other : Path, (c.pinned (c.resolve processDir)).resolve other = c.resolve processDir := by
  have hanchored := c.resolve_anchored h
  refine ⟨hanchored.normal, fun other => ?_⟩
  rw [c.resolve_pinned hanchored other]
  rfl

/-- A current directory that is climbed to, a root below it, an empty text, and an output directory
that falls back to the root. -/
theorem resolve_stable_climbing :
    let c : Config :=
      { Config.default with
        paths := ⟨some ⟨"../../../app/"⟩, some ⟨"./src//../lib"⟩, none, some ⟨""⟩⟩ }
    let processDir : Path := ⟨"/work/x"⟩
    let r := c.resolve processDir
    processDir.isAbsolute = true ∧
      (r.currentDir.text, r.rootDir.text, r.outDir.text, r.sourceMapBase.text) =
        ("/app", "/app/lib", "/app/lib", "/app") ∧
      r.outDir.toPath.IsNormal ∧ (c.pinned r).resolve ⟨"/elsewhere"⟩ = r := by
  intro c processDir r
  have hprocess : processDir.isAbsolute = true := by decide
  obtain ⟨hnormal, hstays⟩ := c.resolve_stable hprocess
  exact ⟨hprocess, by decide +kernel, hnormal.outDir, hstays ⟨"/elsewhere"⟩⟩

end Config

end Rebuild
