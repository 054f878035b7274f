import Rebuild.Proofs.Cache.Admission
import Rebuild.Proofs.Service.Pure

/-!
# Caches of a pure parser

A pure parser has one answer to each name and text. A cache is faithful if it
holds no other answers, and it stays so. Two faithful caches with the same
current generation answer alike and stay alike, whatever they remember of the
generation before.
-/

set_option autoImplicit false

namespace Rebuild

variable {σ H : Type}

structure Admission.Alike (a b : Admission H) : Prop where
  parsed : a.parsed = b.parsed
  observed : a.observed = b.observed

namespace FileCache

/-- Every record holds what the parser makes of its name and text, in whatever state. -/
def Faithful (c : FileCache H) (parse : Parser σ H) : Prop :=
  c.Each fun path r => ∀ s, r.parsed = (parse (path.relativeTo c.currentDir) r.contents s).1

/-- Faithful caches that are in the same generation with the same files. -/
structure Alike (parse : Parser σ H) (c d : FileCache H) : Prop where
  current : c.current = d.current
  currentDir : c.currentDir = d.currentDir
  dependencyDir : c.dependencyDir = d.dependencyDir
  left : c.Faithful parse
  right : d.Faithful parse

variable {parse : Parser σ H} {c d : FileCache H}

theorem faithful_empty (currentDir : CanonicalPath) (dependencyDir : String) :
    (empty currentDir dependencyDir : FileCache H).Faithful parse := each_empty _ _

namespace Faithful

theorem reset (h : c.Faithful parse) : c.reset.Faithful parse := each_reset h

theorem accept_parsed (h : c.Faithful parse) (hp : parse.Pure) (path : CanonicalPath)
    (contents : String) (isRoot : Option Bool) (s t : σ) :
    (c.accept path contents isRoot parse s).1.1.parsed =
      (parse (path.relativeTo c.currentDir) contents t).1 := by
  rcases c.accept_parsed path contents isRoot parse s with ⟨r, hr, hc, hparsed⟩ | ⟨-, hparsed⟩
  · rw [hparsed, h path r hr t, hc]
  · rw [hparsed, hp _ contents s t]

theorem accept (h : c.Faithful parse) (hp : parse.Pure) (path : CanonicalPath)
    (contents : String) (isRoot : Option Bool) (s : σ) :
    (c.accept path contents isRoot parse s).1.2.Faithful parse := by
  rw [Faithful, accept_currentDir]
  exact each_accept h (fun t => h.accept_parsed hp path contents isRoot s t)

theorem read (h : c.Faithful parse) (hp : parse.Pure) (disk : Disk) (file : Path)
    (isRoot : Option Bool) (s : σ) : (c.read disk file isRoot parse s).1.2.Faithful parse := by
  rw [FileCache.read]
  split
  · exact h
  · exact h.accept hp _ _ isRoot s

end Faithful

namespace Alike

theorem accept (h : c.Alike parse d) (hp : parse.Pure) (path : CanonicalPath)
    (contents : String) (isRoot : Option Bool) (s t : σ) :
    (c.accept path contents isRoot parse s).1.1.Alike (d.accept path contents isRoot parse t).1.1 ∧
      (c.accept path contents isRoot parse s).1.2.Alike parse
        (d.accept path contents isRoot parse t).1.2 := by
  have hparsed : (c.accept path contents isRoot parse s).1.1.parsed =
      (d.accept path contents isRoot parse t).1.1.parsed := by
    rw [h.left.accept_parsed hp path contents isRoot s t,
      h.right.accept_parsed hp path contents isRoot t t, h.currentDir]
  constructor
  · exact ⟨hparsed, by rw [accept_observed, accept_observed, h.currentDir]⟩
  · constructor
    · rw [accept_current, accept_current, hparsed, h.current]
      simp only [record, rootFlag, isDependency, h.current, h.currentDir, h.dependencyDir]
    · rw [accept_currentDir, accept_currentDir, h.currentDir]
    · rw [accept_dependencyDir, accept_dependencyDir, h.dependencyDir]
    · exact h.left.accept hp path contents isRoot s
    · exact h.right.accept hp path contents isRoot t

theorem read (h : c.Alike parse d) (hp : parse.Pure) (disk : Disk) (file : Path)
    (isRoot : Option Bool) (s t : σ) :
    Option.Rel Admission.Alike (c.read disk file isRoot parse s).1.1
        (d.read disk file isRoot parse t).1.1 ∧
      (c.read disk file isRoot parse s).1.2.Alike parse
        (d.read disk file isRoot parse t).1.2 := by
  have hpath : c.canonicalize file = d.canonicalize file := by
    rw [canonicalize, canonicalize, h.currentDir]
  rw [FileCache.read, FileCache.read, hpath]
  split
  · exact ⟨.none, { h with }⟩
  · obtain ⟨hanswer, hcache⟩ := h.accept hp (d.canonicalize file) _ isRoot s t
    exact ⟨.some hanswer, hcache⟩

theorem rootNames (h : c.Alike parse d) : c.rootNames = d.rootNames := by
  rw [FileCache.rootNames, FileCache.rootNames, rootPaths, rootPaths, dependencyPaths,
    dependencyPaths, select, select, select, select, h.current]

end Alike

end FileCache

end Rebuild
