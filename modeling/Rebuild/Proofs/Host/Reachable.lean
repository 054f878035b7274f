import Rebuild.Host.Request
import Rebuild.Proofs.Cache.Admission

/-!
# Reachable hosts

A host is reached from a new one by requests, over any disks. Between them the
service may move on, listeners come and are read, and the rewriter of source
maps may be replaced. A property that every part of a request keeps holds of
all of these hosts once it holds of the new ones.
-/

set_option autoImplicit false

namespace Rebuild

variable {σ H : Type}

namespace Host

/-- What changes around a host without a request. -/
def around (h : Host σ H) (state : σ) (listeners : List Listener) (rewriter : SourceMapRewriter) :
    Host σ H :=
  { h with serviceState := state, listeners := listeners, rewriter := rewriter }

inductive Reachable : Host σ H → Prop
  | start (service : Service σ H) (state : σ) (config : ResolvedConfig) :
    Reachable (.ofService service state config)
  | handle {h : Host σ H} (disk : Disk) (request : Request) (hr : Reachable h) :
    Reachable (h.handle disk request).2
  | around {h : Host σ H} (state : σ) (listeners : List Listener) (rewriter : SourceMapRewriter)
    (hr : Reachable h) : Reachable (h.around state listeners rewriter)

theorem addFile_compiled (h : Host σ H) (disk : Disk) (path : Path) (isRoot : Bool)
    (hphase : h.phase = .compiled) :
    h.addFile disk path isRoot = (.error (.addAfterCompile path), h) := by
  rw [addFile, if_pos hphase]

theorem addFile_idle (h : Host σ H) (disk : Disk) (path : Path) (isRoot : Bool)
    (hphase : h.phase ≠ .compiled) :
    h.addFile disk path isRoot =
      let r := h.cache.read disk path (some isRoot) h.service.parse h.serviceState
      (.ok (h.keep r.1).1, { (h.keep r.1).2 with serviceState := r.2 }) := by
  rw [addFile, if_neg hphase]
  rfl

theorem serve_finish (h : Host σ H) (disk : Disk) (result : Except InternalError (Program σ))
    (state : σ) :
    h.serve disk (.finish result state) = (result, { h with serviceState := state }) := by
  rw [serve]

theorem serve_read (h : Host σ H) (disk : Disk) (path : Path) (state : σ)
    (next : Option H → σ → Session σ H) :
    h.serve disk (.read path state next) =
      let r := h.cache.read disk path none h.service.parse state
      (h.keep r.1).2.serve disk (next (h.keep r.1).1 r.2) := by
  rw [serve]
  rfl

theorem mayEmit_congr {h k : Host σ H} (hconfig : h.config = k.config)
    (hf : h.failed = k.failed) : h.mayEmit = k.mayEmit := by
  funext found
  rw [mayEmit, mayEmit, strict, strict, hconfig, hf]

theorem stored_congr {h k : Host σ H} {file : Path} (hconfig : h.config = k.config)
    (hdir : h.cache.currentDir = k.cache.currentDir) (hrewriter : h.rewriter = k.rewriter)
    (houtput : h.output? file = k.output? file) : h.stored file = k.stored file := by
  have hsource : h.cache.canonicalize file = k.cache.canonicalize file := by
    rw [FileCache.canonicalize, FileCache.canonicalize, hdir]
  have hdeliver (data : ByteArray) : h.deliver (h.cache.canonicalize file) data =
      k.deliver (k.cache.canonicalize file) data := by
    rw [deliver, deliver, hsource, hconfig, hrewriter]
  rw [stored, stored, houtput]
  split
  · rw [hdeliver]
  · rfl

/-- Holds on after each part of a request. -/
structure Kept (P : Host σ H → Prop) : Prop where
  around : ∀ {h}, P h → ∀ state listeners rewriter, P (h.around state listeners rewriter)
  read : ∀ {h}, P h → ∀ disk path isRoot state,
    P { h with cache := (h.cache.read disk path isRoot h.service.parse state).1.2 }
  start : ∀ {h}, P h → P { h with phase := .compiled, passes := h.passes + 1 }
  fail : ∀ {h}, P h → ∀ severe, P (h.fail severe)
  storeAll : ∀ {h}, P h → ∀ disk writes, P (h.storeAll disk writes)
  attempt : ∀ {h}, P h → ∀ key, P { h with attempted := h.attempted.insert key }
  reset : ∀ {h}, P h → P h.reset

namespace Kept

variable {P : Host σ H → Prop} {h : Host σ H}

theorem tell (hk : Kept P) (hh : P h) (e : Event) : P (h.tell e) :=
  hk.around hh h.serviceState _ h.rewriter

theorem state (hk : Kept P) (hh : P h) (s : σ) : P { h with serviceState := s } :=
  hk.around hh s h.listeners h.rewriter

theorem tellAll (hk : Kept P) (hh : P h) (es : List Event) : P (h.tellAll es) := by
  induction es generalizing h with
  | nil => exact hh
  | cons e es ih => exact ih (hk.tell hh e)

theorem report (hk : Kept P) (hh : P h) (ds : List Diagnostic) : P (h.report ds) :=
  hk.tellAll hh _

theorem keep (hk : Kept P) {r : Option (Admission H) × FileCache H}
    (hr : P { h with cache := r.2 }) : P (h.keep r).2 := by
  obtain ⟨admission, cache⟩ := r
  cases admission with
  | none => exact hr
  | some a => exact hk.tell hr _

theorem addFile (hk : Kept P) (hh : P h) (disk : Disk) (path : Path) (isRoot : Bool) :
    P (h.addFile disk path isRoot).2 := by
  by_cases hphase : h.phase = .compiled
  · rw [addFile_compiled h disk path isRoot hphase]
    exact hh
  · rw [addFile_idle h disk path isRoot hphase]
    exact hk.state (hk.keep (hk.read hh disk path (some isRoot) h.serviceState)) _

theorem addRoots (hk : Kept P) (hh : P h) (disk : Disk) (paths : List Path) :
    P (h.addRoots disk paths).2 := by
  induction paths generalizing h with
  | nil => exact hh
  | cons path paths ih =>
    have hadd := hk.addFile hh disk path true
    rw [Host.addRoots]
    split
    · rename_i he
      rw [he] at hadd
      exact hadd
    · rename_i he
      rw [he] at hadd
      exact ih hadd

theorem addEntries (hk : Kept P) (hh : P h) (disk : Disk) (rows : List EntryRow) :
    P (h.addEntries disk rows).2 := by
  have hadd := hk.addRoots hh disk (EntrySelection.ofRows rows).entries
  rw [Host.addEntries]
  split
  · rename_i he
    rw [he] at hadd
    exact hadd
  · rename_i he
    rw [he] at hadd
    exact hadd

theorem serve (hk : Kept P) (hh : P h) (disk : Disk) (session : Session σ H) :
    P (h.serve disk session).2 := by
  induction session generalizing h with
  | finish result state =>
    rw [serve_finish]
    exact hk.state hh state
  | read path state next ih =>
    rw [serve_read]
    exact ih _ _ (hk.keep (hk.read hh disk path none state))

theorem pass (hk : Kept P) (hh : P h) (disk : Disk) : P (h.pass disk).2 := by
  have hserve := hk.serve (hk.start hh) disk
    (h.service.build h.cache.rootNames h.config h.serviceState)
  rw [Host.pass]
  dsimp only
  split
  · rename_i he
    rw [he] at hserve
    exact hserve
  · rename_i he
    rw [he] at hserve
    exact hk.state hserve _

theorem conclude (hk : Kept P) (hh : P h) (disk : Disk) (verdict : Verdict) :
    P (h.conclude disk verdict).2 := by
  cases verdict with
  | failed e => exact hh
  | malformed found => exact hk.fail (hk.report hh found) true
  | checked found => exact hk.fail (hk.report hh found) _
  | emitted found emission =>
    exact hk.fail (hk.report (hk.storeAll (hk.report hh found) disk _) _) _

theorem compile (hk : Kept P) (hh : P h) (disk : Disk) : P (h.compile disk).2 :=
  hk.conclude (hk.pass hh disk) disk _

theorem retrieve (hk : Kept P) (hh : P h) (disk : Disk) (file : Path) :
    P (h.retrieve disk file).2 := by
  have hcompile := hk.compile (hk.attempt hh (h.outputKey (h.cache.canonicalize file))) disk
  rw [Host.retrieve]
  split
  · exact hh
  · dsimp only
    split
    · exact hh
    · split
      · rename_i he
        rw [he] at hcompile
        exact hcompile
      · rename_i he
        rw [he] at hcompile
        split <;> exact hcompile

theorem transform (hk : Kept P) (hh : P h) (disk : Disk) (file : Path) :
    P (h.transform disk file).2 := by
  have hretrieve := hk.retrieve hh disk file
  rw [Host.transform]
  split
  · exact hh
  · split
    · exact hh
    · split
      · exact hh
      · split
        · rename_i he
          rw [he] at hretrieve
          exact hretrieve
        · rename_i he
          rw [he] at hretrieve
          exact hretrieve

theorem handle (hk : Kept P) (hh : P h) (disk : Disk) (request : Request) :
    P (h.handle disk request).2 := by
  cases request with
  | addFile path isRoot => exact hk.addFile hh disk path isRoot
  | addEntries rows => exact hk.addEntries hh disk rows
  | compile => exact hk.compile hh disk
  | output source => exact hh
  | retrieve file => exact hk.retrieve hh disk file
  | transform file => exact hk.transform hh disk file
  | reset => exact hk.reset hh

end Kept

theorem Reachable.kept {P : Host σ H → Prop} (hk : Kept P)
    (hstart : ∀ service state config, P (.ofService service state config)) {h : Host σ H}
    (hr : h.Reachable) : P h := by
  induction hr with
  | start service state config => exact hstart service state config
  | handle disk request _ ih => exact hk.handle ih disk request
  | around state listeners rewriter _ ih => exact hk.around ih state listeners rewriter

theorem kept_service (service : Service σ H) : Kept (fun h => h.service = service) where
  around hh _ _ _ := hh
  read hh _ _ _ _ := hh
  start hh := hh
  fail hh _ := hh
  storeAll hh _ _ := hh
  attempt hh _ := hh
  reset hh := hh

theorem handle_service (h : Host σ H) (disk : Disk) (request : Request) :
    (h.handle disk request).2.service = h.service :=
  (kept_service h.service).handle rfl disk request

structure Placed (h : Host σ H) : Prop where
  currentDir : h.cache.currentDir = h.config.currentDir
  dependencyDir : h.cache.dependencyDir = h.config.dependencyDir

theorem kept_placed : Kept (fun h : Host σ H => h.Placed) where
  around hh _ _ _ := { hh with }
  read hh disk path isRoot state :=
    { currentDir := (FileCache.read_currentDir _ isRoot disk path _ state).trans hh.currentDir
      dependencyDir :=
        (FileCache.read_dependencyDir _ isRoot disk path _ state).trans hh.dependencyDir }
  start hh := { hh with }
  fail hh _ := { hh with }
  storeAll hh _ _ := { hh with }
  attempt hh _ := { hh with }
  reset hh := { hh with }

theorem Reachable.placed {h : Host σ H} (hr : h.Reachable) : h.Placed :=
  hr.kept kept_placed (fun _ _ _ => ⟨rfl, rfl⟩)

end Host

end Rebuild
