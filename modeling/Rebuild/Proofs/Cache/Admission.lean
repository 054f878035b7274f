import Rebuild.Cache.Basic
import Rebuild.Proofs.Path.Spelling

/-!
# Admissions

What one admission does to a cache. The admitted text ends up under its path
in the current generation, and no other record changes. Its parsed form is
that of a record of the same text, or the text has just been parsed.
-/

set_option autoImplicit false

namespace Rebuild

variable {σ H : Type}

theorem generation_insert (g : Generation H) (p q : CanonicalPath) (r : FileRecord H) :
    (g.insert p r)[q]? = if p = q then some r else g[q]? := by
  simp only [Std.TreeMap.getElem?_insert, Std.LawfulEqCmp.compare_eq_iff_eq]

/-- Equal texts have equal hashes, so for a record that is hashed right only its text counts. -/
theorem FileRecord.holds_iff {r : FileRecord H} (h : r.hash = .ofText r.contents)
    (contents : String) : r.holds (.ofText contents) contents = true ↔ r.contents = contents := by
  rw [holds, Bool.and_eq_true_iff, beq_iff_eq, beq_iff_eq, h]
  constructor
  · exact fun hr => hr.2
  · rintro rfl
    exact ⟨rfl, rfl⟩

def CanonicalPath.IsDependency (path : CanonicalPath) (dependencyDir : String) : Prop :=
  (∃ c ∈ path.components.dropLast, c.text = dependencyDir) ∧
    FileKind.ofCanonical path ≠ .declaration

namespace FileCache

theorem isDependency_iff (c : FileCache H) (path : CanonicalPath) :
    c.isDependency path = true ↔ path.IsDependency c.dependencyDir := by
  rw [isDependency, Bool.and_eq_true_iff, path.passesThrough_iff, bne_iff_ne]
  rfl

variable (c : FileCache H) (path : CanonicalPath) (contents : String) (isRoot : Option Bool)

theorem accept_found (parse : Parser σ H) (s : σ) {parsed : H} {reuse : Reuse}
    (h : c.recorded? path contents = some (parsed, reuse)) :
    c.accept path contents isRoot parse s = (c.store path contents isRoot parsed reuse, s) := by
  simp only [accept, h]

theorem accept_fresh (parse : Parser σ H) (s : σ) (h : c.recorded? path contents = none) :
    c.accept path contents isRoot parse s =
      (c.store path contents isRoot (parse (path.relativeTo c.currentDir) contents s).1 .fresh,
        (parse (path.relativeTo c.currentDir) contents s).2) := by
  simp only [accept, h]

theorem accept_eq_store (parse : Parser σ H) (s : σ) :
    (c.accept path contents isRoot parse s).1 =
      c.store path contents isRoot (c.accept path contents isRoot parse s).1.1.parsed
        (c.accept path contents isRoot parse s).1.1.reuse := by
  cases h : c.recorded? path contents with
  | none => rw [accept_fresh c path contents isRoot parse s h]; rfl
  | some found => rw [accept_found c path contents isRoot parse s h]; rfl

theorem accept_currentDir (parse : Parser σ H) (s : σ) :
    (c.accept path contents isRoot parse s).1.2.currentDir = c.currentDir := by
  rw [accept_eq_store]
  rfl

theorem accept_dependencyDir (parse : Parser σ H) (s : σ) :
    (c.accept path contents isRoot parse s).1.2.dependencyDir = c.dependencyDir := by
  rw [accept_eq_store]
  rfl

theorem accept_previous (parse : Parser σ H) (s : σ) :
    (c.accept path contents isRoot parse s).1.2.previous = c.previous := by
  rw [accept_eq_store]
  rfl

theorem accept_current (parse : Parser σ H) (s : σ) :
    (c.accept path contents isRoot parse s).1.2.current =
      c.current.insert path (c.record path contents isRoot
        (c.accept path contents isRoot parse s).1.1.parsed) := by
  rw [accept_eq_store]
  rfl

theorem accept_stats (parse : Parser σ H) (s : σ) :
    (c.accept path contents isRoot parse s).1.2.stats =
      c.stats.count (c.accept path contents isRoot parse s).1.1.reuse := by
  rw [accept_eq_store]
  rfl

theorem accept_observed (parse : Parser σ H) (s : σ) :
    (c.accept path contents isRoot parse s).1.1.observed =
      ⟨path.relativeTo c.currentDir, path⟩ := by
  rw [accept_eq_store]
  rfl

theorem accept_reuse (parse : Parser σ H) (s : σ) :
    (c.accept path contents isRoot parse s).1.1.reuse =
      ((c.recorded? path contents).map Prod.snd).getD .fresh := by
  cases h : c.recorded? path contents with
  | none => rw [accept_fresh c path contents isRoot parse s h]; rfl
  | some found => rw [accept_found c path contents isRoot parse s h]; rfl

theorem recorded?_eq_some {parsed : H} {reuse : Reuse}
    (h : c.recorded? path contents = some (parsed, reuse)) :
    ∃ r, (c.current[path]? = some r ∨ c.previous[path]? = some r) ∧
      r.contents = contents ∧ r.parsed = parsed ∧ reuse ≠ .fresh := by
  have hholds (g : Generation H) (r : FileRecord H)
      (hr : g[path]?.filter (·.holds (.ofText contents) contents) = some r) :
      g[path]? = some r ∧ r.contents = contents := by
    obtain ⟨hg, hr⟩ := Option.filter_eq_some_iff.mp hr
    exact ⟨hg, beq_iff_eq.mp (Bool.and_eq_true_iff.mp hr).2⟩
  rw [recorded?] at h
  split at h
  · rename_i r hr
    obtain ⟨hg, hc⟩ := hholds _ r hr
    cases h
    exact ⟨r, Or.inl hg, hc, rfl, by decide⟩
  · split at h
    · rename_i r hr
      obtain ⟨hg, hc⟩ := hholds _ r hr
      cases h
      exact ⟨r, Or.inr hg, hc, rfl, by decide⟩
    · cases h

theorem accept_parsed (parse : Parser σ H) (s : σ) :
    (∃ r, (c.current[path]? = some r ∨ c.previous[path]? = some r) ∧ r.contents = contents ∧
      (c.accept path contents isRoot parse s).1.1.parsed = r.parsed) ∨
    ((c.accept path contents isRoot parse s).1.1.reuse = .fresh ∧
      (c.accept path contents isRoot parse s).1.1.parsed =
        (parse (path.relativeTo c.currentDir) contents s).1) := by
  cases h : c.recorded? path contents with
  | none =>
    rw [accept_fresh c path contents isRoot parse s h]
    exact Or.inr ⟨rfl, rfl⟩
  | some found =>
    obtain ⟨r, hr, hc, hp, -⟩ := recorded?_eq_some c path contents h
    rw [accept_found c path contents isRoot parse s h]
    exact Or.inl ⟨r, hr, hc, hp.symm⟩

def Each (P : CanonicalPath → FileRecord H → Prop) (c : FileCache H) : Prop :=
  ∀ path r, c.current[path]? = some r ∨ c.previous[path]? = some r → P path r

variable {P Q : CanonicalPath → FileRecord H → Prop}

theorem Each.mono {c : FileCache H} (h : c.Each P) (hpq : ∀ path r, P path r → Q path r) :
    c.Each Q :=
  fun path r hr => hpq path r (h path r hr)

theorem each_empty (currentDir : CanonicalPath) (dependencyDir : String) :
    Each P (empty currentDir dependencyDir) := by
  intro path r hr
  simp [empty] at hr

theorem each_reset {c : FileCache H} (h : c.Each P) : c.reset.Each P := by
  intro path r hr
  simp only [reset, Std.TreeMap.getElem?_emptyc, reduceCtorEq, false_or] at hr
  exact h path r (Or.inl hr)

theorem each_accept {c : FileCache H} {path : CanonicalPath} {contents : String}
    {isRoot : Option Bool} {parse : Parser σ H} {s : σ} (h : c.Each P)
    (hnew : P path (c.record path contents isRoot
      (c.accept path contents isRoot parse s).1.1.parsed)) :
    (c.accept path contents isRoot parse s).1.2.Each P := by
  intro q r hr
  rw [accept_current, accept_previous, generation_insert] at hr
  split at hr
  · rename_i hq
    subst q
    rcases hr with hr | hr
    · exact Option.some.inj hr ▸ hnew
    · exact h path r (Or.inr hr)
  · exact h q r hr

theorem read_currentDir (disk : Disk) (file : Path) (parse : Parser σ H) (s : σ) :
    (c.read disk file isRoot parse s).1.2.currentDir = c.currentDir := by
  rw [read]
  split
  · rfl
  · exact accept_currentDir c _ _ isRoot parse s

theorem read_dependencyDir (disk : Disk) (file : Path) (parse : Parser σ H) (s : σ) :
    (c.read disk file isRoot parse s).1.2.dependencyDir = c.dependencyDir := by
  rw [read]
  split
  · rfl
  · exact accept_dependencyDir c _ _ isRoot parse s

theorem recorded?_reuse (hc : c.Each fun _ r => r.hash = .ofText r.contents) :
    (c.recorded? path contents).map Prod.snd =
      if c.current[path]?.map FileRecord.contents = some contents then some .current
      else if c.previous[path]?.map FileRecord.contents = some contents then some .previous
      else none := by
  have hfilter (g : Generation H) (hg : ∀ r, g[path]? = some r → r.hash = .ofText r.contents) :
      (g[path]?.filter (·.holds (.ofText contents) contents)).isSome = true ↔
        g[path]?.map FileRecord.contents = some contents := by
    cases hr : g[path]? with
    | none => simp
    | some r =>
      have hh := FileRecord.holds_iff (hg r hr) contents
      by_cases hrc : r.contents = contents <;> simp [Option.filter, hh, hrc]
  have hcur := hfilter c.current (fun r hr => hc path r (Or.inl hr))
  have hprev := hfilter c.previous (fun r hr => hc path r (Or.inr hr))
  rw [recorded?]
  split
  · rename_i r hr
    rw [if_pos (hcur.mp (by rw [hr]; rfl))]
    rfl
  · rename_i hnone
    rw [if_neg (fun h => by simpa [hnone] using hcur.mpr h)]
    split
    · rename_i r hr
      rw [if_pos (hprev.mp (by rw [hr]; rfl))]
      rfl
    · rename_i hnone
      rw [if_neg (fun h => by simpa [hnone] using hprev.mpr h)]
      rfl

end FileCache

end Rebuild
