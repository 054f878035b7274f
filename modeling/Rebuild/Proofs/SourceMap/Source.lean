import Rebuild.Proofs.Path.Climbing
import Rebuild.SourceMap.Rewrite

/-!
# The source that a map names

A map names its source by the way from a base directory, with each backslash
written as a slash. Where the way has no backslash it leads back to the
source. Where it has one, it is part of a name, and no way without backslashes
leads to that name.
-/

set_option autoImplicit false

namespace Rebuild

theorem mem_of_mem_segments {cs s : List Char} (hs : s ∈ segments cs) : ∀ c ∈ s, c ∈ cs := by
  induction cs generalizing s with
  | nil =>
    rw [segments, List.mem_singleton] at hs
    simp [hs]
  | cons c cs ih =>
    intro d hd
    rw [segments] at hs
    split at hs
    · rcases List.mem_cons.mp hs with rfl | hs
      · cases hd
      · exact List.mem_cons_of_mem _ (ih hs d hd)
    · cases hsegs : segments cs with
      | nil => exact absurd hsegs (segments_ne_nil cs)
      | cons first rest =>
        rw [hsegs] at hs ih
        rcases List.mem_cons.mp hs with rfl | hs
        · rcases List.mem_cons.mp hd with rfl | hd
          · exact List.mem_cons_self ..
          · exact List.mem_cons_of_mem _ (ih (List.mem_cons_self ..) d hd)
        · exact List.mem_cons_of_mem _ (ih (List.mem_cons_of_mem _ hs) d hd)

theorem mem_joinSegments {segs : List (List Char)} {ch : Char} (hch : ch ≠ '/') :
    ch ∈ joinSegments segs ↔ ∃ s ∈ segs, ch ∈ s := by
  induction segs with
  | nil => simp [joinSegments]
  | cons s rest ih =>
    cases rest with
    | nil => simp [joinSegments]
    | cons t rest =>
      rw [joinSegments_cons_cons, List.mem_append, List.mem_cons, ih]
      simp [hch]

namespace Component

theorem name_of_ofSegment? {s : List Char} {n : Name} (h : ofSegment? s = some (.name n)) :
    n.chars = s := by
  rw [ofSegment?] at h
  split at h
  · cases h
  · obtain ⟨m, hm, he⟩ := Option.map_eq_some_iff.mp h
    cases he
    rw [Name.ofText?] at hm
    split at hm
    · cases hm
      rw [Name.chars, String.toList_ofList]
    · cases hm

end Component

namespace Path

theorem mem_text_of_name {p : Path} {n : Name} (hn : .name n ∈ p.components) :
    ∀ c ∈ n.chars, c ∈ p.text.toList := by
  have hsegment : ∃ s ∈ p.segments, Component.ofSegment? s = some (.name n) := by
    cases hsegs : p.segments with
    | nil => exact absurd hsegs (segments_ne_nil _)
    | cons first rest =>
      rw [components_of_segments hsegs] at hn
      rcases List.mem_append.mp hn with hfirst | hrest
      · refine ⟨first, List.mem_cons_self .., ?_⟩
        rw [anchor] at hfirst
        split at hfirst
        · split at hfirst <;> simp at hfirst
        · split at hfirst
          · simp at hfirst
          · simpa using hfirst
      · obtain ⟨s, hs, hname⟩ := List.mem_filterMap.mp hrest
        exact ⟨s, List.mem_cons_of_mem _ hs, hname⟩
  obtain ⟨s, hs, hname⟩ := hsegment
  rw [Component.name_of_ofSegment? hname]
  exact mem_of_mem_segments hs

theorem mem_text_of_steps {cs : List Component} (h : ∀ c ∈ cs, c.IsStep) {ch : Char}
    (hch : ch ≠ '/') : ch ∈ (ofComponents cs).text.toList ↔ ∃ c ∈ cs, ch ∈ c.chars := by
  rw [ofComponents_chars h, mem_joinSegments hch]
  simp

end Path

namespace CanonicalPath

/-- A walk keeps a leading part of where it starts, and all names behind it are names it has
taken. -/
theorem walk_kept (dir : CanonicalPath) (cs : List Component) :
    ∃ kept taken, kept <+: dir.names ∧ (dir.walk cs).names = kept ++ taken ∧
      ∀ n ∈ taken, .name n ∈ cs := by
  induction cs using List.reverseRecOn with
  | nil => exact ⟨dir.names, [], List.prefix_rfl, by simp [walk], by simp⟩
  | append_singleton cs c ih =>
    obtain ⟨kept, taken, hkept, hnames, htaken⟩ := ih
    have hmore : ∀ n ∈ taken, Component.name n ∈ cs ++ [c] :=
      fun n hn => List.mem_append_left _ (htaken n hn)
    rw [walk_append]
    change ∃ kept taken, kept <+: dir.names ∧ ((dir.walk cs).step c).names = kept ++ taken ∧ _
    cases c with
    | root => exact ⟨[], [], List.nil_prefix, rfl, by simp⟩
    | here => exact ⟨kept, taken, hkept, hnames, hmore⟩
    | up =>
      rcases List.eq_nil_or_concat' taken with rfl | ⟨front, n, rfl⟩
      · refine ⟨kept.dropLast, [], (List.dropLast_prefix kept).trans hkept, ?_, by simp⟩
        rw [step, hnames, List.append_nil, List.append_nil]
      · refine ⟨kept, front, hkept, ?_, fun m hm => hmore m (List.mem_append_left _ hm)⟩
        rw [step, hnames, ← List.append_assoc, List.dropLast_concat]
    | name n =>
      refine ⟨kept, taken ++ [n], hkept, ?_, ?_⟩
      · rw [step, hnames, List.append_assoc]
      · intro m hm
        rcases List.mem_append.mp hm with hm | hm
        · exact hmore m hm
        · rw [List.mem_singleton.mp hm]
          simp

theorem walk_ne {dir p : CanonicalPath} {shared above below : List Name}
    (hdir : dir.names = shared ++ above) (hp : p.names = shared ++ below)
    (hapart : Apart above below) {n : Name} (hn : n ∈ below) {cs : List Component}
    (hcs : .name n ∉ cs) : dir.walk cs ≠ p := by
  intro hwalk
  obtain ⟨kept, taken, hkept, hnames, htaken⟩ := dir.walk_kept cs
  obtain ⟨front, back, rfl⟩ := List.append_of_mem hn
  rw [hwalk, hp, ← List.append_assoc] at hnames
  rw [hdir] at hkept
  have habsent : n ∉ taken := fun hmem => hcs (htaken n hmem)
  rcases List.append_eq_append_iff.mp hnames with ⟨more, rfl, hmore⟩ | ⟨more, -, rfl⟩
  · cases more with
    | nil =>
      rw [List.nil_append] at hmore
      exact habsent (hmore ▸ List.mem_cons_self ..)
    | cons m more =>
      obtain ⟨rfl, -⟩ := List.cons.inj hmore
      rw [List.append_assoc, List.prefix_append_right_inj] at hkept
      obtain ⟨rest, rfl⟩ := hkept
      cases front with
      | nil => exact hapart n rfl n rfl rfl
      | cons m front => exact hapart m rfl m rfl rfl
  · exact habsent (List.mem_append_right _ (List.mem_cons_self ..))

end CanonicalPath

namespace SourceMap

open CanonicalPath

theorem sourceText_chars (source : Path) :
    (sourceText source).toList = source.text.toList.map fun c => if c = '\\' then '/' else c := by
  rw [sourceText, String.toList_ofList]

theorem not_mem_sourceText (source : Path) : '\\' ∉ (sourceText source).toList := by
  rw [sourceText_chars]
  intro hmem
  obtain ⟨c, -, hc⟩ := List.mem_map.mp hmem
  split at hc
  · exact absurd hc (by decide)
  · contradiction

theorem sourceText_eq_self {source : Path} (h : '\\' ∉ source.text.toList) :
    sourceText source = source.text := by
  rw [← String.toList_inj, sourceText_chars]
  refine (List.map_congr_left fun c hc => ?_).trans (List.map_id _)
  have hne : c ≠ '\\' := ne_of_mem_of_not_mem hc h
  exact if_neg hne

theorem join_sourceText_iff {base p : CanonicalPath} (hbase : base.rooted = true)
    (hp : p.rooted = true) :
    base.join ⟨sourceText (p.relativeTo base)⟩ = p ↔
      '\\' ∉ (p.relativeTo base).text.toList := by
  constructor
  · intro hjoin hmem
    obtain ⟨shared, above, below, hsource, htarget, hapart, hway⟩ := relativeTo_eq_steps hbase hp
    rw [hway, Path.mem_text_of_steps isStep_of_mem (by decide)] at hmem
    obtain ⟨c, hc, hbackslash⟩ := hmem
    obtain ⟨n, hn, rfl⟩ : ∃ n ∈ below, .name n = c := by
      rcases List.mem_append.mp hc with hup | hname
      · rw [(List.mem_replicate.mp hup).2] at hbackslash
        exact absurd hbackslash (by decide)
      · exact List.mem_map.mp hname
    refine walk_ne hsource htarget hapart hn ?_ hjoin
    intro hname
    exact not_mem_sourceText _ (Path.mem_text_of_name hname _ hbackslash)
  · intro hplain
    rw [sourceText_eq_self hplain]
    exact join_relativeTo hbase hp

end SourceMap

end Rebuild
