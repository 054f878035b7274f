import Rebuild.Proofs.Host.Entries
import Rebuild.Proofs.Host.Events

/-!
# Files that are not added

After a pass no file is added, and the host stays as it is. Before it every
file is tried. One that cannot be read is counted and leaves no other trace:
adding files leads to the host that is reached with those that can be read,
but for the count.
-/

set_option autoImplicit false

namespace Rebuild

variable {σ H : Type}

namespace FileCache

variable (c : FileCache H)

def missing (n : Nat) : FileCache H :=
  { c with stats := { c.stats with readMisses := c.stats.readMisses + n } }

def readable (disk : Disk) (p : Path) : Bool := (disk.readText (c.canonicalize p).toPath).isOk

theorem missing_missing (m n : Nat) : (c.missing m).missing n = c.missing (m + n) := by
  simp only [missing, Nat.add_assoc]

theorem read_unreadable {disk : Disk} {p : Path} (h : c.readable disk p = false)
    (isRoot : Option Bool) (parse : Parser σ H) (s : σ) :
    c.read disk p isRoot parse s = ((none, c.missing 1), s) := by
  rw [readable] at h
  cases hr : disk.readText (c.canonicalize p).toPath with
  | error e =>
    rw [read, hr]
    rfl
  | ok contents =>
    rw [hr] at h
    cases h

theorem accept_missing (n : Nat) (path : CanonicalPath) (contents : String)
    (isRoot : Option Bool) (parse : Parser σ H) (s : σ) :
    (c.missing n).accept path contents isRoot parse s =
      let r := c.accept path contents isRoot parse s
      ((r.1.1, r.1.2.missing n), r.2) := by
  have hstore (parsed : H) (reuse : Reuse) :
      (c.missing n).store path contents isRoot parsed reuse =
        ((c.store path contents isRoot parsed reuse).1,
          (c.store path contents isRoot parsed reuse).2.missing n) := by
    cases reuse <;> rfl
  have hrecorded : (c.missing n).recorded? path contents = c.recorded? path contents := rfl
  cases h : c.recorded? path contents with
  | none =>
    rw [accept_fresh _ _ _ _ _ _ (hrecorded.trans h), hstore, accept_fresh _ _ _ _ _ _ h]
    rfl
  | some found =>
    rw [accept_found _ _ _ _ _ _ (hrecorded.trans h), hstore, accept_found _ _ _ _ _ _ h]

theorem read_missing (n : Nat) (disk : Disk) (p : Path) (isRoot : Option Bool)
    (parse : Parser σ H) (s : σ) :
    (c.missing n).read disk p isRoot parse s =
      let r := c.read disk p isRoot parse s
      ((r.1.1, r.1.2.missing n), r.2) := by
  cases h : c.readable disk p with
  | false =>
    have hmissing : (c.missing n).readable disk p = false := h
    rw [read_unreadable _ hmissing, read_unreadable _ h, missing_missing]
    simp only [missing_missing, Nat.add_comm]
  | true =>
    rw [readable] at h
    have hplace : (c.missing n).canonicalize p = c.canonicalize p := rfl
    cases hr : disk.readText (c.canonicalize p).toPath with
    | error e =>
      rw [hr] at h
      cases h
    | ok contents =>
      rw [read, read, hplace, hr]
      dsimp only
      rw [accept_missing]

end FileCache

theorem Phase.ne_compiled {p : Phase} (h : p = .idle) : p ≠ .compiled := by
  rw [h]
  decide

namespace Host

def missing (h : Host σ H) (n : Nat) : Host σ H := { h with cache := h.cache.missing n }

theorem missing_missing (h : Host σ H) (m n : Nat) :
    (h.missing m).missing n = h.missing (m + n) := by
  rw [missing, missing, missing, FileCache.missing_missing]

def withRoots (h : Host σ H) (disk : Disk) (paths : List Path) : Host σ H :=
  paths.foldl (fun k path => (k.addFile disk path true).2) h

theorem keep_missing (h : Host σ H) (n : Nat) (r : Option (Admission H) × FileCache H) :
    (h.missing n).keep (r.1, r.2.missing n) = ((h.keep r).1, (h.keep r).2.missing n) := by
  obtain ⟨admission, cache⟩ := r
  cases admission <;> rfl

theorem addFile_missing (h : Host σ H) (disk : Disk) (path : Path) (isRoot : Bool) (n : Nat)
    (hphase : h.phase ≠ .compiled) :
    (h.missing n).addFile disk path isRoot =
      ((h.addFile disk path isRoot).1, (h.addFile disk path isRoot).2.missing n) := by
  have hidle : (h.missing n).phase ≠ .compiled := hphase
  rw [addFile_idle _ disk path isRoot hidle, addFile_idle h disk path isRoot hphase]
  have hread := h.cache.read_missing n disk path (some isRoot) h.service.parse h.serviceState
  have hcache : (h.missing n).cache.read disk path (some isRoot) (h.missing n).service.parse
      (h.missing n).serviceState = _ := hread
  rw [hcache]
  dsimp only
  rw [keep_missing]
  rfl

theorem addFile_unreadable (h : Host σ H) {disk : Disk} {path : Path} (isRoot : Bool)
    (hphase : h.phase ≠ .compiled) (hread : h.cache.readable disk path = false) :
    h.addFile disk path isRoot = (.ok none, h.missing 1) := by
  rw [addFile_idle h disk path isRoot hphase, FileCache.read_unreadable _ hread]
  rfl

theorem addFile_readable (h : Host σ H) (disk : Disk) (path : Path) (isRoot : Bool) :
    (h.addFile disk path isRoot).2.cache.readable disk = h.cache.readable disk := by
  funext p
  rw [FileCache.readable, FileCache.canonicalize, (h.reads_addFile disk path isRoot).currentDir]
  rfl

theorem withRoots_missing (h : Host σ H) (disk : Disk) (paths : List Path) (n : Nat)
    (hphase : h.phase ≠ .compiled) :
    (h.missing n).withRoots disk paths = (h.withRoots disk paths).missing n := by
  induction paths generalizing h with
  | nil => rfl
  | cons path paths ih =>
    have hfirst := congrArg Prod.snd (h.addFile_missing disk path true n hphase)
    rw [withRoots, List.foldl_cons, hfirst]
    exact ih _ (h.addFile_keeps_idle disk path true hphase)

/-- Files that cannot be read are passed over, and each of them is counted. -/
theorem withRoots_readable (h : Host σ H) (disk : Disk) (paths : List Path)
    (hphase : h.phase ≠ .compiled) :
    h.withRoots disk paths = (h.withRoots disk (paths.filter (h.cache.readable disk))).missing
      (paths.countP fun path => !h.cache.readable disk path) := by
  induction paths generalizing h with
  | nil => rfl
  | cons path paths ih =>
    have hrest := ih _ (h.addFile_keeps_idle disk path true hphase)
    rw [addFile_readable] at hrest
    rw [withRoots, List.foldl_cons]
    refine hrest.trans ?_
    cases hread : h.cache.readable disk path with
    | true =>
      rw [List.filter_cons_of_pos hread, List.countP_cons_of_neg (by simp [hread])]
      rfl
    | false =>
      have hmissed : (h.addFile disk path true).2 = h.missing 1 :=
        congrArg Prod.snd (h.addFile_unreadable true hphase hread)
      rw [List.filter_cons_of_neg (by simp [hread]), List.countP_cons_of_pos (by simp [hread]),
        hmissed, withRoots_missing h disk _ 1 hphase, missing_missing, Nat.add_comm]

theorem addFile_error_iff (h : Host σ H) (disk : Disk) (path : Path) (isRoot : Bool)
    (e : HostError) :
    (h.addFile disk path isRoot).1 = .error e ↔
      h.phase = .compiled ∧ e = .addAfterCompile path := by
  by_cases hphase : h.phase = .compiled
  · rw [addFile_compiled h disk path isRoot hphase]
    constructor
    · intro he
      cases he
      exact ⟨hphase, rfl⟩
    · rintro ⟨-, rfl⟩
      rfl
  · rw [addFile_idle h disk path isRoot hphase]
    exact iff_of_false (fun he => by cases he) fun he => hphase he.1

theorem addEntries_idle (h : Host σ H) (disk : Disk) (rows : List EntryRow)
    (hphase : h.phase ≠ .compiled) :
    h.addEntries disk rows =
      (.ok (.ofRows rows), h.withRoots disk (EntrySelection.ofRows rows).entries) := by
  rw [addEntries, addRoots_idle h disk _ hphase]
  rfl

theorem addEntries_error_iff (h : Host σ H) (disk : Disk) (rows : List EntryRow) (e : HostError) :
    (h.addEntries disk rows).1 = .error e ↔
      h.phase = .compiled ∧
        (EntrySelection.ofRows rows).entries.head?.map .addAfterCompile = some e := by
  by_cases hphase : h.phase = .compiled
  · rw [addEntries_compiled h disk rows hphase]
    cases (EntrySelection.ofRows rows).entries <;> simp [hphase]
  · rw [addEntries_idle h disk rows hphase]
    exact iff_of_false (fun he => by cases he) fun he => hphase he.1

theorem addEntries_refused (h : Host σ H) (disk : Disk) (rows : List EntryRow)
    (hphase : h.phase = .compiled) : (h.addEntries disk rows).2 = h := by
  rw [addEntries_compiled h disk rows hphase]
  cases (EntrySelection.ofRows rows).entries <;> rfl

theorem addTells_eq_nil (h : Host σ H) (disk : Disk) (path : Path) (isRoot : Bool)
    (hnone : ∀ parsed, (h.addFile disk path isRoot).1 ≠ .ok (some parsed)) :
    h.addTells disk path isRoot = [] := by
  rw [addTells]
  split
  · rename_i parsed hadd
    exact absurd hadd (hnone parsed)
  · rfl

/-- Adding files either comes to something or leaves the host alone. A refusal is for a pass that
has been, names the first file, and changes and tells nothing. A file that cannot be read before
the first pass is answered with nothing: the miss is counted, and what is recorded for the file
stays. The entries are tried to the last one, so the host is the one that those lead to that can
be read, with the misses counted. -/
theorem adds_refused_or_missed (h : Host σ H) (disk : Disk) :
    (∀ path isRoot e, (h.addFile disk path isRoot).1 = .error e →
      h.phase = .compiled ∧ e = .addAfterCompile path ∧ (h.addFile disk path isRoot).2 = h ∧
      h.tells disk (.addFile path isRoot) = []) ∧
    (∀ rows e, (h.addEntries disk rows).1 = .error e →
      h.phase = .compiled ∧
      (EntrySelection.ofRows rows).entries.head?.map .addAfterCompile = some e ∧
      (h.addEntries disk rows).2 = h ∧ h.tells disk (.addEntries rows) = []) ∧
    (h.phase = .idle → ∀ path isRoot, h.cache.readable disk path = false →
      let next := (h.addFile disk path isRoot).2
      (h.addFile disk path isRoot).1 = .ok none ∧ next = h.missing 1 ∧
      next.cache.get? (h.cache.canonicalize path) = h.cache.get? (h.cache.canonicalize path) ∧
      h.tells disk (.addFile path isRoot) = []) ∧
    (h.phase = .idle → ∀ rows,
      let entries := (EntrySelection.ofRows rows).entries
      h.addEntries disk rows = (.ok (.ofRows rows),
        (h.withRoots disk (entries.filter (h.cache.readable disk))).missing
          (entries.countP fun path => !h.cache.readable disk path))) := by
  refine ⟨?_, ?_, ?_, ?_⟩
  · intro path isRoot e he
    obtain ⟨hphase, rfl⟩ := (h.addFile_error_iff disk path isRoot e).mp he
    refine ⟨hphase, rfl, ?_, h.addTells_eq_nil disk path isRoot fun parsed hadd => ?_⟩
    · rw [addFile_compiled h disk path isRoot hphase]
    · rw [he] at hadd
      cases hadd
  · intro rows e he
    obtain ⟨hphase, hfirst⟩ := (h.addEntries_error_iff disk rows e).mp he
    exact ⟨hphase, hfirst, h.addEntries_refused disk rows hphase,
      h.rootTells_compiled disk _ hphase⟩
  · intro hphase path isRoot hread next
    have hidle := Phase.ne_compiled hphase
    have hadd := h.addFile_unreadable isRoot hidle hread
    have hnext : next = h.missing 1 := congrArg Prod.snd hadd
    refine ⟨congrArg Prod.fst hadd, hnext, ?_, ?_⟩
    · rw [hnext]
      rfl
    · refine h.addTells_eq_nil disk path isRoot fun parsed hsome => ?_
      rw [hadd] at hsome
      cases hsome
  · intro hphase rows entries
    have hidle := Phase.ne_compiled hphase
    rw [addEntries_idle h disk rows hidle, withRoots_readable h disk entries hidle]

/-- A file that was added and is gone from the disk, and one that is there. Before a pass the
second is added and the first stays recorded, and after it both are refused. -/
theorem adds_refused_or_missed_gone :
    let disk := Disk.empty.apply (.file ⟨"/b.ts"⟩ "y".toUTF8)
    let before := Disk.empty.apply (.file ⟨"/a.ts"⟩ "x".toUTF8)
    let gone : Path := ⟨"/a.ts"⟩
    let h := ((ofService (Scripted.service []) .empty (.default ⟨"/"⟩)).addFile before gone true).2
    let rows : List EntryRow :=
      [⟨some "/a.ts", none, none, none⟩, ⟨none, some "/b.ts", none, none⟩]
    let done := (h.compile disk).2
    h.phase = .idle ∧ h.cache.readable disk gone = false ∧
      (h.addFile disk gone false).2 = h.missing 1 ∧
      ((h.addFile disk gone false).2.cache.get? gone.canonical).isSome = true ∧
      h.addEntries disk rows = (.ok (.ofRows rows), (h.withRoots disk [⟨"/b.ts"⟩]).missing 1) ∧
      (done.addEntries disk rows).1 = .error (.addAfterCompile gone) ∧
      (done.addEntries disk rows).2 = done := by
  intro disk before gone h rows done
  have hphase : h.phase = .idle := by decide +kernel
  have hread : h.cache.readable disk gone = false := by decide +kernel
  have hrecorded : (h.cache.get? (h.cache.canonicalize gone)).isSome = true := by decide +kernel
  have hplace : h.cache.canonicalize gone = gone.canonical := by decide +kernel
  have hfound : (EntrySelection.ofRows rows).entries.filter (h.cache.readable disk) =
      [⟨"/b.ts"⟩] := by decide +kernel
  have hmissed : ((EntrySelection.ofRows rows).entries.countP
      fun path => !h.cache.readable disk path) = 1 := by decide +kernel
  have hfirst : (EntrySelection.ofRows rows).entries.head? = some gone := by decide +kernel
  have hrefused : (done.addEntries disk rows).1 = .error (.addAfterCompile gone) := by
    rw [addEntries_error_iff, hfirst]
    exact ⟨h.compile_phase disk, rfl⟩
  obtain ⟨-, -, hmiss, htried⟩ := h.adds_refused_or_missed disk
  obtain ⟨-, hnext, hstays, -⟩ := hmiss hphase gone false hread
  have hentries := htried hphase rows
  dsimp only at hentries
  rw [hfound, hmissed] at hentries
  obtain ⟨-, hrefusal, -⟩ := done.adds_refused_or_missed disk
  refine ⟨hphase, hread, hnext, ?_, hentries, hrefused, (hrefusal rows _ hrefused).2.2.1⟩
  rw [← hplace, hstays]
  exact hrecorded

end Host

end Rebuild
