import Rebuild.Proofs.Cache.Run
import Rebuild.Proofs.Host.Generation
import Rebuild.Disk.Edit
import Rebuild.Service.Scripted

/-!
# What listeners are told

A pass tells of the files that its build has read, in the order in which it
has read them, and then of the diagnostics. Adding a file tells of that file.
Nothing else is told, and each listener is told the same. So a log that nobody
touches holds all that was told since it came.
-/

set_option autoImplicit false

namespace Rebuild

variable {σ H : Type}

/-! ## What a pass reports -/

/-- The diagnostics that a pass was told of, in the order of its reports. Syntax errors end a
pass, so nothing comes after them. -/
def Calls.reported (c : Calls) : List Diagnostic :=
  match c.syntaxErrors? with
  | some (d :: ds) => d :: ds
  | _ => c.semanticErrors?.getD [] ++ (c.emission?.map Emission.diagnostics).getD []

theorem Verdict.Reached.reported_eq {mayEmit : List Diagnostic → Bool} {v : Verdict} {c : Calls}
    (h : v.Reached mayEmit c) : c.reported = v.reported := by
  cases h with
  | failed e => rfl
  | malformed hfound =>
    obtain ⟨d, ds, rfl⟩ := List.exists_cons_of_ne_nil hfound
    rfl
  | checked hasked hno =>
    simp [Calls.reported, Calls.syntaxErrors?, hasked.semanticErrors?_last, hasked.emission?_last,
      Verdict.reported]
  | emitted hasked hyes emission =>
    have hemission := hasked.emission? [.emit emission]
    simp only [Calls.reported, Calls.syntaxErrors?, List.findSome?_cons, hemission,
      hasked.semanticErrors?, Verdict.reported]
    rfl

structure ReadCall where
  path : Path
  answered : Bool

namespace Listener

theorem receiveAll_append (l : Listener) (es fs : List Event) :
    l.receiveAll (es ++ fs) = (l.receiveAll es).receiveAll fs := List.foldl_append

theorem receiveAll_log (log : EventLog) (es : List Event) :
    (Listener.log log).receiveAll es =
      .log ⟨log.events ++ es, log.errorCount + es.countP (·.error?.isSome)⟩ := by
  induction es generalizing log with
  | nil => simp [receiveAll]
  | cons e es ih =>
    rw [show receiveAll (.log log) (e :: es) = receiveAll (.log (log.record e)) es from rfl, ih,
      EventLog.record, List.countP_cons, List.append_assoc, Nat.add_assoc,
      Nat.add_comm (es.countP _)]
    rfl

end Listener

namespace Host

/-! ## Files that are read -/

def fileEvent (h : Host σ H) (path : Path) : Event :=
  .file ⟨(h.cache.canonicalize path).relativeTo h.cache.currentDir, h.cache.canonicalize path⟩

def readEvent? (h : Host σ H) (c : ReadCall) : Option Event :=
  if c.answered then some (h.fileEvent c.path) else none

def reads (h : Host σ H) (disk : Disk) : Session σ H → List ReadCall
  | .finish _ _ => []
  | .read path state next =>
    let r := h.cache.load disk path h.service.parse state
    let a := h.keep r.1
    ⟨path, a.1.isSome⟩ :: a.2.reads disk (next a.1 r.2)

def passReads (h : Host σ H) (disk : Disk) : List ReadCall := h.begin.reads disk h.session

def passEvents (h : Host σ H) (disk : Disk) : List Event :=
  (h.passReads disk).filterMap h.readEvent? ++
    (h.passCalls disk).reported.map fun d => .error (.ofDiagnostic d)

/-- All listeners were told of just these events. -/
def Told (h k : Host σ H) (es : List Event) : Prop :=
  k.listeners = h.listeners.map (·.receiveAll es)

namespace Told

variable {h k l : Host σ H} {es fs : List Event}

theorem silent (hk : k.listeners = h.listeners) : h.Told k [] := by
  rw [Told, hk]
  exact (List.map_id h.listeners).symm

theorem trans (hk : h.Told k es) (hl : k.Told l fs) : h.Told l (es ++ fs) := by
  rw [Told, hl, hk, List.map_map]
  exact List.map_congr_left fun l _ => (l.receiveAll_append es fs).symm

theorem log (hk : h.Told k es) {i : Nat} {kept : EventLog}
    (hlog : h.listeners[i]? = some (.log kept)) :
    k.listeners[i]? =
      some (.log ⟨kept.events ++ es, kept.errorCount + es.countP (·.error?.isSome)⟩) := by
  rw [hk, List.getElem?_map, hlog, Option.map_some, Listener.receiveAll_log]

end Told

theorem Reads.fileEvent {h k : Host σ H} (hk : h.Reads k) : k.fileEvent = h.fileEvent := by
  funext path
  rw [Host.fileEvent, Host.fileEvent, FileCache.canonicalize, FileCache.canonicalize, hk.currentDir]

theorem Reads.readEvent? {h k : Host σ H} (hk : h.Reads k) : k.readEvent? = h.readEvent? := by
  funext c
  rw [Host.readEvent?, Host.readEvent?, hk.fileEvent]

theorem told_keep (h : Host σ H) (disk : Disk) (path : Path) (isRoot : Option Bool) (s : σ) :
    let r := h.keep (h.cache.read disk path isRoot h.service.parse s).1
    h.Told r.2 (h.readEvent? ⟨path, r.1.isSome⟩).toList := by
  intro r
  rcases h.cache.read_cases disk path isRoot h.service.parse s with ⟨contents, -, hr⟩ | ⟨-, hr⟩
  · have hobserved := h.cache.accept_observed (h.cache.canonicalize path) contents isRoot
      h.service.parse s
    rw [show r = _ from congrArg (fun r => h.keep r.1) hr, keep, hobserved]
    rfl
  · rw [show r = _ from congrArg (fun r => h.keep r.1) hr]
    exact .silent rfl

theorem told_serve (h : Host σ H) (disk : Disk) (session : Session σ H) :
    h.Told (h.serve disk session).2 ((h.reads disk session).filterMap h.readEvent?) := by
  induction session generalizing h with
  | finish result state =>
    rw [serve_finish]
    exact .silent rfl
  | read path state next ih =>
    have hkeep := h.told_keep disk path none state
    have hreads := h.reads_keep disk path none state
    have hrest := ih (h.keep (h.cache.read disk path none h.service.parse state).1).1
      (h.cache.read disk path none h.service.parse state).2
      (h.keep (h.cache.read disk path none h.service.parse state).1).2
    rw [hreads.readEvent?] at hrest
    have hall := hkeep.trans hrest
    rw [serve_read, reads, List.filterMap_eq_flatMap_toList, List.flatMap_cons,
      ← List.filterMap_eq_flatMap_toList]
    exact hall

/-! ## Passes -/

theorem review_listeners (r : Except InternalError (Program σ) × Host σ H) :
    (review r).2.listeners = r.2.listeners := by
  obtain ⟨answer, next⟩ := r
  cases answer <;> rfl

theorem told_pass (h : Host σ H) (disk : Disk) :
    h.Told (h.pass disk).2 ((h.passReads disk).filterMap h.readEvent?) := by
  rw [Told, pass_eq, review_listeners]
  exact h.begin.told_serve disk h.session

theorem told_compile (h : Host σ H) (disk : Disk) :
    h.Told (h.compile disk).2 (h.passEvents disk) := by
  refine (h.told_pass disk).trans ?_
  rw [(h.passCalls_reached disk).reported_eq, compile_host, conclude_eq]
  rfl

theorem compile_diagnostics (h : Host σ H) (disk : Disk) {summary : PassSummary}
    (hok : (h.compile disk).1 = .ok summary) :
    (h.passCalls disk).reported.length = summary.diagnostics := by
  have hanswer : (h.compile disk).1 = ((h.pass disk).2.conclude disk (h.pass disk).1).1 := rfl
  rw [hanswer] at hok
  rw [(h.passCalls_reached disk).reported_eq]
  cases hv : (h.pass disk).1 with
  | failed e =>
    rw [hv] at hok
    cases hok
  | malformed found =>
    rw [hv] at hok
    cases hok
    rfl
  | checked found =>
    rw [hv] at hok
    cases hok
    simp [Verdict.reported, PassSummary.diagnostics]
  | emitted found emission =>
    rw [hv] at hok
    cases hok
    simp [Verdict.reported, PassSummary.diagnostics]

theorem compile_silent (h : Host σ H) (disk : Disk) {e : HostError}
    (herror : (h.compile disk).1 = .error e) : (h.passCalls disk).reported = [] := by
  have hanswer : (h.compile disk).1 = ((h.pass disk).2.conclude disk (h.pass disk).1).1 := rfl
  rw [hanswer] at herror
  rw [(h.passCalls_reached disk).reported_eq]
  cases hv : (h.pass disk).1 with
  | failed e => rfl
  | _ =>
    rw [hv] at herror
    cases herror

/-! ## Requests -/

def addTells (h : Host σ H) (disk : Disk) (path : Path) (isRoot : Bool) : List Event :=
  match (h.addFile disk path isRoot).1 with
  | .ok (some _) => [h.fileEvent path]
  | _ => []

def rootTells (h : Host σ H) (disk : Disk) : List Path → List Event
  | [] => []
  | path :: rest => h.addTells disk path true ++ (h.addFile disk path true).2.rootTells disk rest

/-- What is told when an output is wanted: what its pass tells, if it starts one. -/
def retrievalTells (h : Host σ H) (disk : Disk) (request : Request) (file : Path) : List Event :=
  if (h.calls disk request).started then (h.attempt (h.keyOf file)).passEvents disk else []

def tells (h : Host σ H) (disk : Disk) : Request → List Event
  | .addFile path isRoot => h.addTells disk path isRoot
  | .addEntries rows => h.rootTells disk (EntrySelection.ofRows rows).entries
  | .compile => h.passEvents disk
  | .output _ => []
  | .retrieve file => h.retrievalTells disk (.retrieve file) file
  | .transform file => h.retrievalTells disk (.transform file) file
  | .reset => []

theorem told_addFile (h : Host σ H) (disk : Disk) (path : Path) (isRoot : Bool) :
    h.Told (h.addFile disk path isRoot).2 (h.addTells disk path isRoot) := by
  by_cases hphase : h.phase = .compiled
  · rw [addTells, addFile_compiled h disk path isRoot hphase]
    exact .silent rfl
  · have hkeep := h.told_keep disk path (some isRoot) h.serviceState
    rw [addTells, addFile_idle h disk path isRoot hphase]
    dsimp only at hkeep ⊢
    generalize h.keep (h.cache.read disk path (some isRoot) h.service.parse h.serviceState).1 = r
      at hkeep ⊢
    obtain ⟨parsed, next⟩ := r
    cases parsed <;> exact hkeep

theorem rootTells_compiled (h : Host σ H) (disk : Disk) (paths : List Path)
    (hphase : h.phase = .compiled) : h.rootTells disk paths = [] := by
  induction paths with
  | nil => rfl
  | cons path paths ih =>
    rw [rootTells, addTells, addFile_compiled h disk path true hphase]
    exact ih

theorem told_addRoots (h : Host σ H) (disk : Disk) (paths : List Path) :
    h.Told (h.addRoots disk paths).2 (h.rootTells disk paths) := by
  induction paths generalizing h with
  | nil => exact .silent rfl
  | cons path paths ih =>
    by_cases hphase : h.phase = .compiled
    · rw [rootTells_compiled h disk _ hphase, addRoots, addFile_compiled h disk path true hphase]
      exact .silent rfl
    · have hadd := (h.told_addFile disk path true).trans (ih _)
      rw [rootTells, addRoots]
      rw [addFile_idle h disk path true hphase] at hadd ⊢
      exact hadd

theorem told_addEntries (h : Host σ H) (disk : Disk) (rows : List EntryRow) :
    h.Told (h.addEntries disk rows).2 (h.rootTells disk (EntrySelection.ofRows rows).entries) := by
  have hroots := h.told_addRoots disk (EntrySelection.ofRows rows).entries
  rw [addEntries]
  generalize h.addRoots disk (EntrySelection.ofRows rows).entries = r at hroots ⊢
  obtain ⟨answer, next⟩ := r
  cases answer <;> exact hroots

theorem retrieve_still (h : Host σ H) (disk : Disk) (file : Path)
    (hpasses : (h.retrieve disk file).2.passes ≠ h.passes + 1) :
    (h.retrieve disk file).2 = h := by
  cases hf : h.failed with
  | true => rw [h.retrieve_failed disk file hf]
  | false =>
    cases hkey : h.known (h.keyOf file) with
    | true => rw [h.retrieve_known disk file hf hkey]
    | false =>
      rw [h.retrieve_new disk file hf hkey, settle_host, compile_passes] at hpasses
      exact absurd rfl hpasses

theorem told_retrieval (h : Host σ H) (disk : Disk) {request : Request} {file : Path}
    (hfile : request.file? = some file) :
    h.Told (h.handle disk request).2 (h.retrievalTells disk request file) := by
  have heffect := h.handle_effect disk request
  rw [retrievalTells]
  split
  · rename_i hstarted
    obtain ⟨-, -, -, hnext⟩ := heffect.starts hfile hstarted
    rw [hnext]
    exact (h.attempt (h.keyOf file)).told_compile disk
  · rename_i hquiet
    have hpasses : (h.handle disk request).2.passes ≠ h.passes + 1 :=
      mt (heffect.started (Request.isReset_of_file? hfile)) hquiet
    suffices hsame : (h.handle disk request).2 = h from .silent (congrArg listeners hsame)
    rcases h.handle_retrieval disk hfile with hr | hr | hr | hr
    · rw [hr]
    · rw [hr]
    · rw [hr] at hpasses ⊢
      exact h.retrieve_still disk file hpasses
    · rw [hr] at hpasses ⊢
      exact h.retrieve_still disk file hpasses

theorem told_handle (h : Host σ H) (disk : Disk) (request : Request) :
    h.Told (h.handle disk request).2 (h.tells disk request) := by
  cases request with
  | addFile path isRoot => exact h.told_addFile disk path isRoot
  | addEntries rows => exact h.told_addEntries disk rows
  | compile => exact h.told_compile disk
  | output source => exact .silent rfl
  | retrieve file => exact h.told_retrieval disk rfl
  | transform file => exact h.told_retrieval disk rfl
  | reset => exact .silent rfl

/-! ## Runs -/

def toldIn (h : Host σ H) : List (Turn σ) → List Event
  | [] => []
  | .handle disk request :: turns =>
    h.tells disk request ++ (h.handle disk request).2.toldIn turns
  | .around state listeners rewriter :: turns =>
    (h.around state listeners rewriter).toldIn turns

/-- Between the requests of a run nobody touches the listener at this index. -/
def Spares (i : Nat) (h : Host σ H) : List (Turn σ) → Prop
  | [] => True
  | .handle disk request :: turns => (h.handle disk request).2.Spares i turns
  | .around state listeners rewriter :: turns =>
    listeners[i]? = h.listeners[i]? ∧ (h.around state listeners rewriter).Spares i turns

theorem log_after (h : Host σ H) {i : Nat} {kept : EventLog}
    (hlog : h.listeners[i]? = some (.log kept)) (turns : List (Turn σ)) (hturns : h.Spares i turns) :
    (h.after turns).listeners[i]? = some (.log ⟨kept.events ++ h.toldIn turns,
      kept.errorCount + (h.toldIn turns).countP (·.error?.isSome)⟩) := by
  induction turns generalizing h kept with
  | nil => simpa [after, toldIn] using hlog
  | cons t turns ih =>
    cases t with
    | around state listeners rewriter => exact ih _ (hturns.1.trans hlog) hturns.2
    | handle disk request =>
      rw [after, turn, ih _ ((h.told_handle disk request).log hlog) hturns, toldIn,
        List.countP_append, List.append_assoc, Nat.add_assoc]

/-- The events are accounted for. A pass tells each listener of the files that its build could
read, in order, and then of its diagnostics: the syntax errors if there are any, and else the
semantic diagnostics and those of the emission. The summary counts them, and a pass that breaks off
has none. A log that nobody touches holds what the requests of a run tell, in order: the events of
their passes, and one for each file that was added. -/
theorem events_accounted (h : Host σ H) :
    (∀ disk, let found := (h.passCalls disk).reported
      h.Told (h.compile disk).2 ((h.passReads disk).filterMap h.readEvent? ++
        found.map fun d => .error (.ofDiagnostic d)) ∧
      (∀ e, (h.compile disk).1 = .error e → found = []) ∧
      (∀ summary, (h.compile disk).1 = .ok summary → found.length = summary.diagnostics)) ∧
    (∀ i kept turns, h.listeners[i]? = some (.log kept) → h.Spares i turns →
      (h.after turns).listeners[i]? = some (.log ⟨kept.events ++ h.toldIn turns,
        kept.errorCount + (h.toldIn turns).countP (·.error?.isSome)⟩)) := by
  constructor
  · intro disk found
    refine ⟨h.told_compile disk, ?_, ?_⟩
    · intro e herror
      exact h.compile_silent disk herror
    · intro summary hok
      exact h.compile_diagnostics disk hok
  · intro i kept turns hlog hturns
    exact h.log_after hlog turns hturns

/-- A log that comes to a new host. The build reads a file that was added and one that is not
there, and then something is found. -/
theorem events_accounted_scripted :
    let found := Diagnostic.ofText .warning 6133 "'x' is declared but its value is never read."
    let script : Scripted.Script :=
      { Scripted.Script.blank with
        reads := [⟨"a.ts"⟩, ⟨"b.ts"⟩]
        semanticDiagnostics := [found] }
    let disk := Disk.empty.apply (.file ⟨"/a.ts"⟩ "let x = 1".toUTF8)
    let h := (ofService (Scripted.service [script]) .empty (.default ⟨"/"⟩)).subscribe (.log .empty)
    let turns : List (Turn Scripted.Stage) :=
      [.handle disk (.addFile ⟨"a.ts"⟩ true), .handle disk (.retrieve ⟨"a.ts"⟩)]
    h.listeners[0]? = some (.log .empty) ∧ h.Spares 0 turns ∧
      h.toldIn turns =
        [h.fileEvent ⟨"a.ts"⟩, h.fileEvent ⟨"a.ts"⟩, .error (.ofDiagnostic found)] ∧
      (h.after turns).listeners[0]? =
        some (.log ⟨h.toldIn turns, (h.toldIn turns).countP (·.error?.isSome)⟩) := by
  intro found script disk h turns
  have hlog : h.listeners[0]? = some (.log .empty) := rfl
  have hturns : h.Spares 0 turns := trivial
  have hafter := h.events_accounted.2 0 .empty turns hlog hturns
  rw [EventLog.empty, List.nil_append, Nat.zero_add] at hafter
  exact ⟨hlog, hturns, by decide +kernel, hafter⟩

end Host

end Rebuild
