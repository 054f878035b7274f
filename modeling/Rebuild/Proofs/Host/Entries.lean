import Mathlib.Data.List.Forall2
import Rebuild.Proofs.Host.Passes
import Rebuild.Proofs.Path.Surplus
import Rebuild.Service.Sketch

/-!
# Entries

The rows of a build tool are sorted into files to add and names to pass over.
A name with a directory is resolved against that directory alone, before the
working directory is known, and the outcome is resolved below the working
directory when the file is added. This leads to the file that the row names if
the row is anchored. Otherwise the climbs are lost that lead out of the
directory of the row.
-/

set_option autoImplicit false

namespace Rebuild

namespace Path

theorem join_isAbsolute_iff (dir p : Path) :
    (dir.join p).isAbsolute = true ↔ p.isAbsolute = true ∨ dir.isAbsolute = true := by
  cases hp : p.isAbsolute with
  | true => rw [join_of_isAbsolute dir hp, hp, iff_true_intro rfl, true_or]
  | false =>
    by_cases hdir : dir.text = ""
    · obtain rfl : dir = ⟨""⟩ := congrArg Path.mk hdir
      rw [empty_join, hp]
      decide
    · have hfirst : .root ∉ Component.dropHere p.components := by
        rw [← filterMap_segments hp]
        intro hroot
        obtain ⟨s, -, hs⟩ := List.mem_filterMap.mp hroot
        exact Component.ofSegment?_ne_root s hs
      rw [← root_mem_components, join_components dir hp hdir, List.mem_append,
        or_iff_left hfirst, root_mem_components]
      simp

end Path

namespace EntryRow

variable (r : EntryRow)

def namePath : Path := ⟨r.name?.getD ""⟩

def namesFile : Bool :=
  r.name?.isSome && r.source.isNone && (r.baseDir.isSome || r.namePath.isAbsolute)

def path : Path := (r.baseDir.getD ⟨""⟩).join r.namePath

def target (dir : CanonicalPath) : CanonicalPath :=
  match r.baseDir with
  | some base => (dir.join base).join r.namePath
  | none => r.namePath.canonical

def Anchored : Prop :=
  r.namePath.isAbsolute = true ∨ ∃ base, r.baseDir = some base ∧ base.isAbsolute = true

theorem path_isAbsolute_iff : r.path.isAbsolute = true ↔ r.Anchored := by
  rw [path, Path.join_isAbsolute_iff, Anchored]
  cases r.baseDir with
  | none => simp [show Path.isAbsolute ⟨""⟩ = false from rfl]
  | some base => simp

def entry : Path :=
  match r.baseDir with
  | some base => (r.namePath.canonicalize base).toPath
  | none => r.namePath

/-- How a host in the directory `dir` finds the file of a row under the path listed for it. The
surplus climbs of a row that is not anchored should take names of the directory, and take none. -/
structure ListedAs (dir : CanonicalPath) (entry : Path) : Prop where
  absolute : entry.isAbsolute = true ↔ r.Anchored
  found : dir.join entry = r.target dir ↔ r.Anchored ∨ dir.names = [] ∨ r.path.surplus = 0
  missed : ¬r.Anchored → ∃ names, dir.join entry = ⟨dir.rooted, dir.names ++ names⟩ ∧
    r.target dir = ⟨dir.rooted, dir.names.take (dir.names.length - r.path.surplus) ++ names⟩

variable {r}

theorem listedAs_unbased (dir : CanonicalPath) (h : r.namesFile = true)
    (hbase : r.baseDir = none) : r.ListedAs dir r.entry := by
  have habs : r.namePath.isAbsolute = true := by
    rw [namesFile, hbase] at h
    exact (Bool.and_eq_true_iff.mp h).2
  have hanchored : r.Anchored := Or.inl habs
  have hentry : r.entry = r.namePath := by rw [entry, hbase]
  have htarget : r.target dir = r.namePath.canonical := by rw [target, hbase]
  refine ⟨?_, ?_, fun hnot => absurd hanchored hnot⟩
  · rw [hentry]
    exact iff_of_true habs hanchored
  · rw [hentry, htarget]
    exact iff_of_true (dir.join_of_isAbsolute _ habs) (Or.inl hanchored)

theorem listedAs_based (dir : CanonicalPath) {base : Path} (hbase : r.baseDir = some base) :
    r.ListedAs dir r.entry := by
  have hpath : r.path = base.join r.namePath := by rw [path, hbase]; rfl
  have hentry : r.entry = (CanonicalPath.nowhere.join r.path).toPath := by
    rw [entry, hbase, hpath, ← Path.canonicalize_eq_join]
  have htarget : r.target dir = dir.join r.path := by
    rw [target, hbase, hpath, CanonicalPath.join_join]
  refine ⟨?_, ?_, fun hnot => ?_⟩
  · rw [hentry, CanonicalPath.toPath_isAbsolute, CanonicalPath.nowhere_join_rooted,
      path_isAbsolute_iff]
  · rw [hentry, htarget, CanonicalPath.join_resolved_iff, path_isAbsolute_iff]
  · have hrelative : r.path.isAbsolute = false :=
      Bool.eq_false_iff.mpr fun habs => hnot (r.path_isAbsolute_iff.mp habs)
    rw [hentry, htarget]
    exact ⟨_, dir.join_resolved hrelative, dir.join_below hrelative⟩

theorem listedAs_entry (dir : CanonicalPath) (h : r.namesFile = true) : r.ListedAs dir r.entry := by
  cases hbase : r.baseDir with
  | none => exact listedAs_unbased dir h hbase
  | some base => exact listedAs_based dir hbase

end EntryRow

namespace EntrySelection

theorem ofRow_eq (r : EntryRow) :
    ofRow r = if r.namesFile then ⟨[r.entry], []⟩ else ⟨[], r.name?.toList⟩ := by
  cases hname : r.name? with
  | none => simp [ofRow, hname, EntryRow.namesFile, empty]
  | some name =>
    have hpath : r.namePath = ⟨name⟩ := by rw [EntryRow.namePath, hname]; rfl
    by_cases hsource : r.source = none
    · cases hbase : r.baseDir with
      | none =>
        cases habs : Path.isAbsolute ⟨name⟩ <;>
          simp [ofRow, hname, EntryRow.namesFile, hsource, hbase, hpath, habs, EntryRow.entry]
      | some base => simp [ofRow, hname, EntryRow.namesFile, hsource, hbase, hpath, EntryRow.entry]
    · have hgiven : r.source.isSome = true := Option.isSome_iff_ne_none.mpr hsource
      simp [ofRow, hname, EntryRow.namesFile, hsource, hgiven]

theorem ofRows_cons (r : EntryRow) (rows : List EntryRow) :
    ofRows (r :: rows) = (ofRow r).append (ofRows rows) := rfl

theorem ofRows_eq (rows : List EntryRow) :
    ofRows rows = ⟨(rows.filter EntryRow.namesFile).map EntryRow.entry,
      (rows.filter (fun r => !r.namesFile)).filterMap EntryRow.name?⟩ := by
  induction rows with
  | nil => rfl
  | cons r rows ih =>
    rw [ofRows_cons, ih, ofRow_eq]
    by_cases h : r.namesFile = true
    · simp [h, append]
    · cases hname : r.name? <;> simp [h, hname, append]

end EntrySelection

namespace Host

variable {σ H : Type}

theorem addFile_keeps_idle (h : Host σ H) (disk : Disk) (path : Path) (isRoot : Bool)
    (hphase : h.phase ≠ .compiled) : (h.addFile disk path isRoot).2.phase ≠ .compiled :=
  (h.reads_addFile disk path isRoot).phase.trans_ne hphase

theorem addRoots_idle (h : Host σ H) (disk : Disk) (paths : List Path)
    (hphase : h.phase ≠ .compiled) :
    h.addRoots disk paths =
      (.ok (), paths.foldl (fun k path => (k.addFile disk path true).2) h) := by
  induction paths generalizing h with
  | nil => rfl
  | cons path paths ih =>
    have hadd := h.addFile_idle disk path true hphase
    rw [List.foldl_cons, ← ih _ (h.addFile_keeps_idle disk path true hphase), addRoots]
    split
    · rename_i he
      rw [hadd] at he
      cases he
    · rename_i he
      rw [he]

/-- The files of the rows that name one are tried as roots in the order of the rows, and the names
of the other rows are passed over. Each file is found where its row says, unless the row has a
relative directory and climbs out of it. -/
theorem entries_resolved (h : Host σ H) (disk : Disk) (rows : List EntryRow)
    (hphase : h.phase = .idle) :
    ∃ entries,
      h.addEntries disk rows =
        (.ok ⟨entries, (rows.filter (fun r => !r.namesFile)).filterMap EntryRow.name?⟩,
          entries.foldl (fun k entry => (k.addFile disk entry true).2) h) ∧
      List.Forall₂ (fun r entry => EntryRow.ListedAs r h.cache.currentDir entry)
        (rows.filter EntryRow.namesFile) entries := by
  refine ⟨(rows.filter EntryRow.namesFile).map EntryRow.entry, ?_, ?_⟩
  · have hidle : h.phase ≠ .compiled := by
      rw [hphase]
      decide
    rw [addEntries, EntrySelection.ofRows_eq, addRoots_idle h disk _ hidle]
  · rw [List.forall₂_map_right_iff, List.forall₂_same]
    intro r hr
    exact EntryRow.listedAs_entry _ (List.mem_filter.mp hr).2

theorem entries_resolved_within :
    let h := ofService Sketch.service .empty (.default ⟨"/w"⟩)
    let based : EntryRow := ⟨some "../a.ts", none, none, some ⟨"lib/src"⟩⟩
    let passed : EntryRow := ⟨none, some "b.ts", none, none⟩
    h.phase = .idle ∧ ∃ entry,
      (h.addEntries .empty [passed, based]).1 = .ok ⟨[entry], ["b.ts"]⟩ ∧
      (h.cache.canonicalize entry).text = "/w/lib/a.ts" ∧ entry.isAbsolute = false := by
  intro h based passed
  have hphase : h.phase = .idle := rfl
  have hanchored : ¬based.Anchored := by
    rw [← EntryRow.path_isAbsolute_iff]
    decide
  have hsurplus : based.path.surplus = 0 := by decide +kernel
  obtain ⟨entries, hanswer, hlisted⟩ := h.entries_resolved .empty [passed, based] hphase
  have hnamed : [passed, based].filter EntryRow.namesFile = [based] := by decide +kernel
  have hpassed : ([passed, based].filter (fun r => !r.namesFile)).filterMap EntryRow.name? =
      ["b.ts"] := by decide +kernel
  rw [hnamed] at hlisted
  rw [hpassed] at hanswer
  cases hlisted with
  | cons hentry hrest =>
    cases hrest
    refine ⟨hphase, _, congrArg Prod.fst hanswer, ?_, ?_⟩
    · rw [FileCache.canonicalize, hentry.found.mpr (Or.inr (Or.inr hsurplus))]
      decide +kernel
    · exact Bool.eq_false_iff.mpr fun habs => hanchored (hentry.absolute.mp habs)

/-- The climb of the row is lost, so the file beside the working directory is looked for in it. -/
theorem entries_lose_climb :
    let h := ofService Sketch.service .empty (.default ⟨"/w"⟩)
    let r : EntryRow := ⟨some "a.ts", none, none, some ⟨".."⟩⟩
    h.phase = .idle ∧
      h.addEntries .empty [r] = (.ok ⟨[⟨"a.ts"⟩], []⟩, (h.addFile .empty ⟨"a.ts"⟩ true).2) ∧
      Path.isAbsolute ⟨"a.ts"⟩ = false ∧
      (h.cache.canonicalize ⟨"a.ts"⟩).text = "/w/a.ts" ∧
      (r.target h.cache.currentDir).text = "/a.ts" := by
  intro h r
  have hphase : h.phase ≠ .compiled := by decide
  have hrows : EntrySelection.ofRows [r] = ⟨[⟨"a.ts"⟩], []⟩ := by decide +kernel
  refine ⟨rfl, ?_, by decide, by decide +kernel, by decide +kernel⟩
  rw [addEntries, hrows, addRoots_idle h .empty _ hphase]
  rfl

end Host

end Rebuild
