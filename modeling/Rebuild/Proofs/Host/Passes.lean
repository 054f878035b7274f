import Rebuild.Proofs.Host.Reachable
import Rebuild.Proofs.Service.Calls

/-!
# Passes

What the parts of a request do to a host. Reading files changes nothing that
belongs to the generation. A pass is counted, its emission is stored, and its
verdict may raise the flag. A retrieval answers at once, or it starts a pass
and then answers.
-/

set_option autoImplicit false

namespace Rebuild

variable {σ H : Type}

def Request.file? : Request → Option Path
  | .retrieve file => some file
  | .transform file => some file
  | _ => none

def Request.isCompile : Request → Bool
  | .compile => true
  | _ => false

def Request.isReset : Request → Bool
  | .reset => true
  | _ => false

theorem Request.isReset_of_file? {request : Request} {file : Path}
    (h : request.file? = some file) : request.isReset = false := by
  cases request with
  | reset => cases h
  | _ => rfl

theorem Request.isCompile_of_file? {request : Request} {file : Path}
    (h : request.file? = some file) : request.isCompile = false := by
  cases request with
  | compile => cases h
  | _ => rfl

def Listener.receiveAll (l : Listener) (es : List Event) : Listener :=
  es.foldl (fun l e => l.receive e) l

namespace Host

def keyOf (h : Host σ H) (file : Path) : CanonicalPath := h.outputKey (h.cache.canonicalize file)

def attempt (h : Host σ H) (key : CanonicalPath) : Host σ H :=
  { h with attempted := h.attempted.insert key }

def begin (h : Host σ H) : Host σ H := { h with phase := .compiled, passes := h.passes + 1 }

def known (h : Host σ H) (key : CanonicalPath) : Bool :=
  h.outputs.contains key || h.attempted.contains key

/-- What a retrieval comes to after its pass. -/
def settle (file : Path) :
    Except HostError PassSummary × Host σ H → Except HostError ByteArray × Host σ H
  | (.error e, h) => (.error e, h)
  | (.ok _, h) => if h.failed then (.error (.compileFailed file), h) else (h.stored file, h)

theorem settle_host (file : Path) (r : Except HostError PassSummary × Host σ H) :
    (settle file r).2 = r.2 := by
  obtain ⟨answer, h⟩ := r
  cases answer with
  | error e => rfl
  | ok summary =>
    rw [settle]
    split <;> rfl

theorem retrieve_failed (h : Host σ H) (disk : Disk) (file : Path) (hf : h.failed = true) :
    h.retrieve disk file = (.error (.compileFailed file), h) := by
  rw [retrieve, if_pos hf]

theorem retrieve_known (h : Host σ H) (disk : Disk) (file : Path) (hf : h.failed = false)
    (hkey : h.known (h.keyOf file) = true) : h.retrieve disk file = (h.stored file, h) := by
  rw [retrieve, if_neg (Bool.eq_false_iff.mp hf)]
  exact if_pos hkey

theorem retrieve_new (h : Host σ H) (disk : Disk) (file : Path) (hf : h.failed = false)
    (hkey : h.known (h.keyOf file) = false) :
    h.retrieve disk file = settle file ((h.attempt (h.keyOf file)).compile disk) := by
  rw [retrieve, if_neg (Bool.eq_false_iff.mp hf)]
  exact if_neg (Bool.eq_false_iff.mp hkey)

/-- What the transform of a file comes to without a look at the outputs. -/
def outright? (h : Host σ H) (file : Path) : Option Transformed :=
  let kind := FileKind.ofPath file
  if kind = .declaration then some .empty
  else if !h.compiles kind then some .passThrough
  else if h.failed then some .empty
  else none

theorem transform_eq (h : Host σ H) (disk : Disk) (file : Path) :
    h.transform disk file =
      match h.outright? file with
      | some t => (.ok t, h)
      | none => ((h.retrieve disk file).1.map .compiled, (h.retrieve disk file).2) := by
  rw [transform, outright?]
  split
  · rfl
  · split
    · rfl
    · split
      · rfl
      · generalize h.retrieve disk file = r
        obtain ⟨answer, next⟩ := r
        cases answer <;> rfl

theorem outright?_cases (h : Host σ H) (file : Path) :
    h.outright? file = some .empty ∨ h.outright? file = some .passThrough ∨
      h.failed = false ∧ h.outright? file = none := by
  rw [outright?]
  split
  · exact Or.inl rfl
  · split
    · exact Or.inr (Or.inl rfl)
    · split
      · exact Or.inl rfl
      · rename_i hf
        exact Or.inr (Or.inr ⟨Bool.eq_false_iff.mpr hf, rfl⟩)

theorem handle_retrieval (h : Host σ H) (disk : Disk) {request : Request} {file : Path}
    (hfile : request.file? = some file) :
    h.handle disk request = (.transformed (.ok .empty), h) ∨
    h.handle disk request = (.transformed (.ok .passThrough), h) ∨
    h.handle disk request = (.retrieved (h.retrieve disk file).1, (h.retrieve disk file).2) ∨
    h.handle disk request =
      (.transformed ((h.retrieve disk file).1.map .compiled), (h.retrieve disk file).2) := by
  cases request with
  | retrieve wanted =>
    cases hfile
    exact Or.inr (Or.inr (Or.inl rfl))
  | transform wanted =>
    cases hfile
    rw [handle, transform_eq]
    rcases h.outright?_cases file with ht | ht | ⟨-, ht⟩
    · rw [ht]
      exact Or.inl rfl
    · rw [ht]
      exact Or.inr (Or.inl rfl)
    · rw [ht]
      exact Or.inr (Or.inr (Or.inr rfl))
  | _ => cases hfile

structure Reads (h k : Host σ H) : Prop where
  service : k.service = h.service
  config : k.config = h.config
  currentDir : k.cache.currentDir = h.cache.currentDir
  outputs : k.outputs = h.outputs
  phase : k.phase = h.phase
  failed : k.failed = h.failed
  passes : k.passes = h.passes
  attempted : k.attempted = h.attempted
  rewriter : k.rewriter = h.rewriter

namespace Reads

theorem refl (h : Host σ H) : h.Reads h := ⟨rfl, rfl, rfl, rfl, rfl, rfl, rfl, rfl, rfl⟩

theorem trans {h k l : Host σ H} (hk : h.Reads k) (hl : k.Reads l) : h.Reads l where
  service := hl.service.trans hk.service
  config := hl.config.trans hk.config
  currentDir := hl.currentDir.trans hk.currentDir
  outputs := hl.outputs.trans hk.outputs
  phase := hl.phase.trans hk.phase
  failed := hl.failed.trans hk.failed
  passes := hl.passes.trans hk.passes
  attempted := hl.attempted.trans hk.attempted
  rewriter := hl.rewriter.trans hk.rewriter

end Reads

theorem reads_keep (h : Host σ H) (disk : Disk) (path : Path) (isRoot : Option Bool) (s : σ) :
    h.Reads (h.keep (h.cache.read disk path isRoot h.service.parse s).1).2 := by
  have hdir := h.cache.read_currentDir isRoot disk path h.service.parse s
  generalize (h.cache.read disk path isRoot h.service.parse s).1 = r at *
  obtain ⟨admission, cache⟩ := r
  cases admission with
  | none => exact { Reads.refl h with currentDir := hdir }
  | some a => exact { Reads.refl h with currentDir := hdir }

theorem reads_addFile (h : Host σ H) (disk : Disk) (path : Path) (isRoot : Bool) :
    h.Reads (h.addFile disk path isRoot).2 := by
  by_cases hphase : h.phase = .compiled
  · rw [addFile_compiled h disk path isRoot hphase]
    exact .refl h
  · rw [addFile_idle h disk path isRoot hphase]
    exact { h.reads_keep disk path (some isRoot) h.serviceState with }

theorem reads_addRoots (h : Host σ H) (disk : Disk) (paths : List Path) :
    h.Reads (h.addRoots disk paths).2 := by
  induction paths generalizing h with
  | nil => exact .refl h
  | cons path paths ih =>
    have hadd := h.reads_addFile disk path true
    rw [addRoots]
    split
    · rename_i he
      rwa [he] at hadd
    · rename_i he
      rw [he] at hadd
      exact hadd.trans (ih _)

theorem reads_addEntries (h : Host σ H) (disk : Disk) (rows : List EntryRow) :
    h.Reads (h.addEntries disk rows).2 := by
  have hadd := h.reads_addRoots disk (EntrySelection.ofRows rows).entries
  rw [addEntries]
  split
  · rename_i he
    rwa [he] at hadd
  · rename_i he
    rwa [he] at hadd

theorem addEntries_compiled (h : Host σ H) (disk : Disk) (rows : List EntryRow)
    (hphase : h.phase = .compiled) :
    h.addEntries disk rows =
      match (EntrySelection.ofRows rows).entries with
      | [] => (.ok (.ofRows rows), h)
      | first :: _ => (.error (.addAfterCompile first), h) := by
  rw [addEntries]
  cases (EntrySelection.ofRows rows).entries with
  | nil => rfl
  | cons first rest => rw [addRoots, addFile_compiled h disk first true hphase]

theorem reads_serve (h : Host σ H) (disk : Disk) (session : Session σ H) :
    h.Reads (h.serve disk session).2 := by
  induction session generalizing h with
  | finish result state =>
    rw [serve_finish]
    exact { Reads.refl h with }
  | read path state next ih =>
    rw [serve_read]
    exact (h.reads_keep disk path none state).trans (ih _ _ _)

def review : Except InternalError (Program σ) × Host σ H → Verdict × Host σ H
  | (.error e, h) => (.failed e, h)
  | (.ok program, h) =>
    ((program.consult h.mayEmit h.serviceState).1,
      { h with serviceState := (program.consult h.mayEmit h.serviceState).2 })

def session (h : Host σ H) : Session σ H :=
  h.service.build h.cache.rootNames h.config h.serviceState

theorem pass_eq (h : Host σ H) (disk : Disk) :
    h.pass disk = review (h.begin.serve disk h.session) := by
  rw [pass, begin, session]
  generalize Host.serve _ disk (h.service.build _ _ _) = r
  obtain ⟨answer, next⟩ := r
  cases answer <;> rfl

theorem reads_review (r : Except InternalError (Program σ) × Host σ H) :
    r.2.Reads (review r).2 := by
  obtain ⟨answer, next⟩ := r
  cases answer with
  | error e => exact .refl next
  | ok program => exact { Reads.refl next with }

theorem reads_pass (h : Host σ H) (disk : Disk) : h.begin.Reads (h.pass disk).2 := by
  rw [pass_eq]
  exact (h.begin.reads_serve disk h.session).trans (reads_review _)

theorem tellAll_eq (h : Host σ H) (es : List Event) :
    h.tellAll es = { h with listeners := h.listeners.map (·.receiveAll es) } := by
  induction es generalizing h with
  | nil => simp [tellAll, Listener.receiveAll]
  | cons e es ih =>
    have hstep : h.tellAll (e :: es) = (h.tell e).tellAll es := rfl
    rw [hstep, ih]
    simp [tell, Listener.receiveAll]

/-- The end of a pass. What was found is reported, what was emitted is stored, and the flag is
raised if need be. -/
theorem conclude_eq (h : Host σ H) (disk : Disk) (v : Verdict) :
    (h.conclude disk v).2 =
      { h with
        listeners := h.listeners.map
          (·.receiveAll (v.reported.map fun d => .error (.ofDiagnostic d)))
        outputs := h.outputPlace.writeAll disk h.outputs v.writes
        failed := h.failed || v.fatal h.strict } := by
  cases v with
  | failed e =>
    simp [conclude, Verdict.reported, Verdict.writes, Verdict.fatal, Listener.receiveAll,
      OutputPlace.writeAll]
  | malformed found =>
    simp only [conclude, report, tellAll_eq, fail]
    rfl
  | checked found =>
    simp only [conclude, report, tellAll_eq, fail]
    rfl
  | emitted found emission =>
    have htwice (l : Listener) (es fs : List Event) :
        (l.receiveAll es).receiveAll fs = l.receiveAll (es ++ fs) := List.foldl_append.symm
    simp only [conclude, report, tellAll_eq, fail, storeAll, List.map_map, Function.comp_def,
      htwice, ← List.map_append]
    rfl

/-! ## A whole pass -/

theorem compile_host (h : Host σ H) (disk : Disk) :
    (h.compile disk).2 = ((h.pass disk).2.conclude disk (h.pass disk).1).2 := rfl

theorem compile_config (h : Host σ H) (disk : Disk) : (h.compile disk).2.config = h.config := by
  rw [compile_host, conclude_eq]
  exact (h.reads_pass disk).config

theorem compile_currentDir (h : Host σ H) (disk : Disk) :
    (h.compile disk).2.cache.currentDir = h.cache.currentDir := by
  rw [compile_host, conclude_eq]
  exact (h.reads_pass disk).currentDir

theorem compile_rewriter (h : Host σ H) (disk : Disk) :
    (h.compile disk).2.rewriter = h.rewriter := by
  rw [compile_host, conclude_eq]
  exact (h.reads_pass disk).rewriter

theorem compile_outputPlace (h : Host σ H) (disk : Disk) :
    (h.compile disk).2.outputPlace = h.outputPlace := by
  rw [outputPlace, outputPlace, outputMap, outputMap, compile_config]

theorem compile_phase (h : Host σ H) (disk : Disk) : (h.compile disk).2.phase = .compiled := by
  rw [compile_host, conclude_eq]
  exact (h.reads_pass disk).phase

theorem compile_passes (h : Host σ H) (disk : Disk) :
    (h.compile disk).2.passes = h.passes + 1 := by
  rw [compile_host, conclude_eq]
  exact (h.reads_pass disk).passes

theorem compile_attempted (h : Host σ H) (disk : Disk) :
    (h.compile disk).2.attempted = h.attempted := by
  rw [compile_host, conclude_eq]
  exact (h.reads_pass disk).attempted

theorem compile_failed (h : Host σ H) (disk : Disk) :
    (h.compile disk).2.failed = (h.failed || (h.pass disk).1.fatal h.strict) := by
  have hread := h.reads_pass disk
  rw [compile_host, conclude_eq]
  dsimp only
  rw [hread.failed, strict, hread.config]
  rfl

theorem compile_outputs (h : Host σ H) (disk : Disk) :
    (h.compile disk).2.outputs = h.outputPlace.writeAll disk h.outputs (h.pass disk).1.writes := by
  have hread := h.reads_pass disk
  rw [compile_host, conclude_eq]
  dsimp only
  rw [hread.outputs, outputPlace, outputMap, hread.config]
  rfl

end Host

end Rebuild
