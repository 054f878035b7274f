import Rebuild.Host.Basic
import Rebuild.Proofs.Output.Writes
import Rebuild.Service.Sketch

/-!
# Both views of a linked source

A source behind a linked directory has two paths, the one it was added by and
the real one. Its output is stored for both, so either path finds it. The key
of the copy is read off the key that the service writes to. It is the key that
the real path is looked up by, wherever the real file is.
-/

set_option autoImplicit false

namespace Rebuild

structure ResolvedConfig.Anchored (c : ResolvedConfig) : Prop where
  currentDir : c.currentDir.rooted = true
  rootDir : c.rootDir.rooted = true
  outDir : c.outDir.rooted = true
  sourceMapBase : c.sourceMapBase.rooted = true

theorem Config.resolve_anchored (c : Config) {processDir : Path}
    (h : processDir.isAbsolute = true) : (c.resolve processDir).Anchored := by
  have hprocess : (CanonicalPath.nowhere.join processDir).rooted = true :=
    CanonicalPath.join_rooted _ h
  have hcurrent : (c.resolve processDir).currentDir.rooted = true :=
    CanonicalPath.walk_rooted hprocess _
  have hwithin (p : Option Path) {fallback : CanonicalPath} (hfallback : fallback.rooted = true) :
      ((p.map (c.resolve processDir).currentDir.join).getD fallback).rooted = true := by
    cases p with
    | none => exact hfallback
    | some p => exact CanonicalPath.walk_rooted hcurrent _
  have hroot : (c.resolve processDir).rootDir.rooted = true := hwithin _ hcurrent
  exact ⟨hcurrent, hroot, hwithin _ hroot, hwithin _ hcurrent⟩

namespace Host

open CanonicalPath

variable {σ H : Type}

theorem storeAll_getElem? (h : Host σ H) (disk : Disk) (path : Path) (data : ByteArray)
    (k : CanonicalPath) :
    (h.storeAll disk [(path, data)]).outputs[k]? =
      if h.outputPlace.Stores disk path k then some data else h.outputs[k]? := by
  simp only [storeAll, OutputPlace.writeAll, List.foldl_cons, List.foldl_nil,
    OutputPlace.write_getElem?]

@[simp] theorem storeAll_cache (h : Host σ H) (disk : Disk) (writes : List (Path × ByteArray)) :
    (h.storeAll disk writes).cache = h.cache := rfl

@[simp] theorem storeAll_outputKey (h : Host σ H) (disk : Disk)
    (writes : List (Path × ByteArray)) (source : CanonicalPath) :
    (h.storeAll disk writes).outputKey source = h.outputKey source := rfl

theorem storeAll_output? (h : Host σ H) (disk : Disk) (path : Path) (data : ByteArray)
    (file : Path) :
    (h.storeAll disk [(path, data)]).output? file =
      if h.outputPlace.Stores disk path (h.outputKey (h.cache.canonicalize file)) then some data
      else h.output? file := by
  simp only [output?, storeAll_cache, storeAll_outputKey, storeAll_getElem?]

theorem join_outputKey (h : Host σ H) (hconfig : h.config.Anchored) (source : CanonicalPath) :
    h.config.currentDir.join (h.outputKey source).toPath = h.outputKey source := by
  have hrooted : (h.outputKey source).rooted = true := walk_rooted hconfig.outDir _
  rw [join_toPath, if_pos hrooted]

variable {h : Host σ H} {disk : Disk} {p dir : CanonicalPath} {n : Name} {real path : Path}

theorem stores_iff (hconfig : h.config.Anchored) (hbelow : p.Below h.config.rootDir)
    (hname : p.fileName? = some n) (hclimbs : ¬n.Climbs) (hparent : p.parent? = some dir)
    (hfollow : disk.follow dir.toPath = .ok real)
    (hpath : h.config.currentDir.join path = h.outputKey p) (k : CanonicalPath) :
    h.outputPlace.Stores disk path k ↔
      k = h.outputKey p ∨ k = h.outputKey (h.cache.canonicalize (real.join ⟨n.text⟩)) := by
  obtain ⟨names, rfl, hp⟩ := hbelow.last hname hparent
  have hrooted : (toPath ⟨h.config.rootDir.rooted, h.config.rootDir.names ++ names⟩).isAbsolute =
      true := by
    rw [toPath_isAbsolute, hconfig.rootDir]
  obtain ⟨place, rfl, -⟩ := Disk.exists_place hrooted hfollow
  obtain ⟨m, -, hm⟩ := OutputMap.exists_outputName h.config.compiler.jsx.keepsJsx
    fun hlost => hclimbs hlost.climbs
  have hkey : h.outputKey p =
      ⟨h.config.outDir.rooted, h.config.outDir.names ++ (names ++ [m])⟩ := by
    rw [hp, outputKey, ← List.append_assoc, hm, List.append_assoc]
    exact h.outputMap.toOutput_below (names ++ [m])
  have hview : h.outputKey (h.cache.canonicalize ((Disk.pathTo place).join ⟨n.text⟩)) =
      h.outputMap.toOutput ⟨true, place ++ [m]⟩ := by
    rw [FileCache.canonicalize, Disk.pathTo, toPath_join_name, join_toPath, if_pos rfl, outputKey,
      hm]
  rw [hview, ← hpath]
  exact OutputPlace.stores_below (w := h.outputPlace) (hpath.trans hkey) hfollow k

/-- Both views of a linked source find its output. What the service writes for a source below the
root is found by the path of the source and by its name in the real directory. No other key is
touched. -/
theorem both_views_stored (h : Host σ H) (disk : Disk) (hconfig : h.config.Anchored)
    (p dir : CanonicalPath) (n : Name) (hbelow : p.Below h.config.rootDir)
    (hname : p.fileName? = some n) (hclimbs : ¬n.Climbs) (hparent : p.parent? = some dir)
    (real : Path) (hfollow : disk.follow dir.toPath = .ok real)
    (path : Path) (data : ByteArray) (hpath : h.config.currentDir.join path = h.outputKey p) :
    let view := real.join ⟨n.text⟩
    let next := h.storeAll disk [(path, data)]
    next.output? p.toPath = some data ∧
    next.output? view = some data ∧
    ∀ k, k ≠ h.outputKey p → k ≠ h.outputKey (h.cache.canonicalize view) →
      next.outputs[k]? = h.outputs[k]? := by
  intro view next
  have hstores := stores_iff hconfig hbelow hname hclimbs hparent hfollow hpath
  have hself : h.cache.canonicalize p.toPath = p := by
    obtain ⟨names, -, rfl⟩ := hbelow
    rw [FileCache.canonicalize, join_toPath, if_pos hconfig.rootDir]
  refine ⟨?_, ?_, ?_⟩
  · rw [storeAll_output?, hself, if_pos ((hstores _).mpr (Or.inl rfl))]
  · rw [storeAll_output?, if_pos ((hstores _).mpr (Or.inr rfl))]
  · intro k hkey hview
    rw [storeAll_getElem?, if_neg (mt (hstores k).mp (not_or.mpr ⟨hkey, hview⟩))]

def apartConfig : ResolvedConfig :=
  Config.resolve ⟨⟨none, none, some ⟨"out"⟩, none⟩, .default, defaultDependencyDir⟩ ⟨"/"⟩

theorem both_views_stored_sketch :
    let h := ofService Sketch.service .empty apartConfig
    let p : CanonicalPath := ⟨true, [⟨"alias", by decide⟩, ⟨"a.ts", by decide⟩]⟩
    let dir : CanonicalPath := ⟨true, [⟨"alias", by decide⟩]⟩
    let path := (h.outputKey p).toPath
    let next := h.storeAll Disk.twoViews [(path, "code".toUTF8)]
    h.config.Anchored ∧ p.Below h.config.rootDir ∧ p.parent? = some dir ∧
      Disk.twoViews.follow dir.toPath = .ok ⟨"/real"⟩ ∧
      h.config.currentDir.join path = h.outputKey p ∧
      next.output? ⟨"/alias/a.ts"⟩ = some "code".toUTF8 ∧
      next.output? ⟨"/real/a.ts"⟩ = some "code".toUTF8 := by
  intro h p dir path next
  have hconfig : apartConfig.Anchored := Config.resolve_anchored _ (by decide)
  have hroot : apartConfig.rootDir = ⟨true, []⟩ := by rfl
  have hbelow : p.Below apartConfig.rootDir := by
    rw [hroot]
    exact ⟨p.names, by decide, rfl⟩
  have hclimbs : ¬Name.Climbs ⟨"a.ts", by decide⟩ := by decide
  have hfollow : Disk.twoViews.follow dir.toPath = .ok ⟨"/real"⟩ :=
    Disk.twoViews_follow
  have hpath : apartConfig.currentDir.join path = h.outputKey p := h.join_outputKey hconfig p
  have hviews := both_views_stored h Disk.twoViews hconfig p dir ⟨"a.ts", by decide⟩ hbelow
    rfl hclimbs rfl ⟨"/real"⟩ hfollow path "code".toUTF8 hpath
  exact ⟨hconfig, hbelow, rfl, hfollow, hpath, hviews.1, hviews.2.1⟩

end Host

end Rebuild
