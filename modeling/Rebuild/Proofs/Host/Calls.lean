import Rebuild.Proofs.Host.Passes

/-!
# The calls of a request

A host whose service writes down the calls of its passes does the same as the
host itself, so the calls that belong to a request can be read off it. Each
request comes to one of five things, and only two of these make calls.
-/

set_option autoImplicit false

namespace Rebuild

variable {σ H : Type}

namespace FileCache

theorem accept_aside (c : FileCache H) (path : CanonicalPath) (contents : String)
    (isRoot : Option Bool) (parse : Parser σ H) (s : σ) (calls : Calls) :
    c.accept path contents isRoot parse.aside (s, calls) =
      ((c.accept path contents isRoot parse s).1,
        (c.accept path contents isRoot parse s).2, calls) := by
  cases h : c.recorded? path contents with
  | none =>
    rw [accept_fresh c path contents isRoot parse.aside _ h,
      accept_fresh c path contents isRoot parse s h]
    rfl
  | some found =>
    rw [accept_found c path contents isRoot parse.aside _ h,
      accept_found c path contents isRoot parse s h]

theorem read_aside (c : FileCache H) (disk : Disk) (file : Path) (isRoot : Option Bool)
    (parse : Parser σ H) (s : σ) (calls : Calls) :
    c.read disk file isRoot parse.aside (s, calls) =
      ((c.read disk file isRoot parse s).1, (c.read disk file isRoot parse s).2, calls) := by
  cases h : disk.readText (c.canonicalize file).toPath with
  | ok contents => simp only [read, h, accept_aside]
  | error e => simp only [read, h]

end FileCache

namespace Host

def noting (h : Host σ H) (calls : Calls) : Host (σ × Calls) H where
  service := h.service.noting
  serviceState := (h.serviceState, calls)
  config := h.config
  cache := h.cache
  outputs := h.outputs
  phase := h.phase
  failed := h.failed
  passes := h.passes
  attempted := h.attempted
  listeners := h.listeners
  rewriter := h.rewriter

def calls (h : Host σ H) (disk : Disk) (request : Request) : Calls :=
  ((h.noting []).handle disk request).2.serviceState.2

def passCalls (h : Host σ H) (disk : Disk) : Calls :=
  ((h.noting []).pass disk).2.serviceState.2

theorem keep_noting (h : Host σ H) (calls : Calls) (r : Option (Admission H) × FileCache H) :
    (h.noting calls).keep r = ((h.keep r).1, (h.keep r).2.noting calls) := by
  obtain ⟨admission, cache⟩ := r
  cases admission <;> rfl

theorem read_noting (h : Host σ H) (before calls : Calls) (disk : Disk) (path : Path)
    (isRoot : Option Bool) (s : σ) :
    (h.noting before).cache.read disk path isRoot (h.noting before).service.parse (s, calls) =
      ((h.cache.read disk path isRoot h.service.parse s).1,
        (h.cache.read disk path isRoot h.service.parse s).2, calls) :=
  h.cache.read_aside disk path isRoot h.service.parse s calls

theorem addFile_noting (h : Host σ H) (calls : Calls) (disk : Disk) (path : Path)
    (isRoot : Bool) :
    (h.noting calls).addFile disk path isRoot =
      ((h.addFile disk path isRoot).1, (h.addFile disk path isRoot).2.noting calls) := by
  by_cases hphase : h.phase = .compiled
  · rw [addFile_compiled h disk path isRoot hphase,
      addFile_compiled (h.noting calls) disk path isRoot hphase]
  · have hread := h.read_noting calls calls disk path (some isRoot) h.serviceState
    rw [addFile_idle h disk path isRoot hphase,
      addFile_idle (h.noting calls) disk path isRoot hphase]
    dsimp only
    rw [show (h.noting calls).serviceState = (h.serviceState, calls) from rfl, hread, keep_noting]
    rfl

theorem addRoots_noting (h : Host σ H) (calls : Calls) (disk : Disk) (paths : List Path) :
    (h.noting calls).addRoots disk paths =
      ((h.addRoots disk paths).1, (h.addRoots disk paths).2.noting calls) := by
  induction paths generalizing h with
  | nil => rfl
  | cons path paths ih =>
    rw [addRoots, addRoots, addFile_noting]
    generalize h.addFile disk path true = r
    obtain ⟨answer, next⟩ := r
    cases answer with
    | error e => rfl
    | ok parsed => exact ih next

theorem addEntries_noting (h : Host σ H) (calls : Calls) (disk : Disk) (rows : List EntryRow) :
    (h.noting calls).addEntries disk rows =
      ((h.addEntries disk rows).1, (h.addEntries disk rows).2.noting calls) := by
  rw [addEntries, addEntries, addRoots_noting]
  generalize h.addRoots disk _ = r
  obtain ⟨answer, next⟩ := r
  cases answer <;> rfl

theorem serve_noting (h : Host σ H) (before calls : Calls) (disk : Disk) (session : Session σ H) :
    (h.noting before).serve disk (session.noting calls) =
      ((h.serve disk session).1.map Program.noting,
        (h.serve disk session).2.noting (calls ++ [.build (h.serve disk session).1.isOk])) := by
  induction session generalizing h before calls with
  | finish result state =>
    rw [Session.noting, serve_finish, serve_finish]
    rfl
  | read path state next ih =>
    rw [Session.noting, serve_read, serve_read]
    dsimp only
    rw [read_noting, keep_noting]
    exact ih _ _ _ _ _

/-- The calls of a pass lead to its verdict, and writing them down changes nothing else. -/
theorem pass_noting (h : Host σ H) (disk : Disk) :
    ∃ asked, (h.pass disk).1.Reached h.mayEmit asked ∧ ∀ calls,
      (h.noting calls).pass disk =
        ((h.pass disk).1, (h.pass disk).2.noting (calls ++ asked)) := by
  have hread := h.begin.reads_serve disk h.session
  have hpass (calls : Calls) : (h.noting calls).pass disk =
      review ((h.begin.serve disk h.session).1.map Program.noting,
        (h.begin.serve disk h.session).2.noting
          (calls ++ [.build (h.begin.serve disk h.session).1.isOk])) := by
    rw [pass_eq, ← serve_noting h.begin calls]
    rfl
  rw [pass_eq]
  generalize h.begin.serve disk h.session = r at *
  obtain ⟨answer, next⟩ := r
  cases answer with
  | error e => exact ⟨_, .failed e, hpass⟩
  | ok program =>
    have hmay : next.mayEmit = h.mayEmit := by
      funext found
      rw [mayEmit, mayEmit, hread.failed, strict, hread.config]
      rfl
    obtain ⟨asked, hasked, hconsult⟩ := program.consult_noting next.mayEmit next.serviceState
    rw [← hmay]
    refine ⟨_, hasked, fun calls => ?_⟩
    have hlast := hconsult (calls ++ [.build true])
    rw [List.append_assoc] at hlast
    rw [hpass]
    exact congrArg (fun r => (r.1, { next.noting calls with serviceState := r.2 })) hlast

theorem passCalls_reached (h : Host σ H) (disk : Disk) :
    (h.pass disk).1.Reached h.mayEmit (h.passCalls disk) := by
  obtain ⟨asked, hasked, hpass⟩ := h.pass_noting disk
  rw [passCalls, hpass]
  exact hasked

theorem conclude_noting (h : Host σ H) (calls : Calls) (disk : Disk) (v : Verdict) :
    (h.noting calls).conclude disk v =
      ((h.conclude disk v).1, (h.conclude disk v).2.noting calls) := by
  refine Prod.ext ?_ ?_
  · cases v <;> rfl
  · dsimp only
    rw [conclude_eq, conclude_eq]
    rfl

theorem compile_noting (h : Host σ H) (calls : Calls) (disk : Disk) :
    (h.noting calls).compile disk =
      ((h.compile disk).1, (h.compile disk).2.noting (calls ++ h.passCalls disk)) := by
  obtain ⟨asked, -, hpass⟩ := h.pass_noting disk
  have hasked : h.passCalls disk = asked := by
    rw [passCalls, hpass]
    rfl
  rw [compile, hpass, hasked]
  exact conclude_noting _ _ disk _

theorem settle_noting (file : Path) (answer : Except HostError PassSummary) (h : Host σ H)
    (calls : Calls) :
    settle file (answer, h.noting calls) =
      ((settle file (answer, h)).1, (settle file (answer, h)).2.noting calls) := by
  cases answer with
  | error e => rfl
  | ok summary =>
    rw [settle, settle, show (h.noting calls).failed = h.failed from rfl]
    split <;> rfl

/-- What a request does to a host, and the calls that it leads to. -/
inductive Effect (h : Host σ H) (disk : Disk) : Request → Calls → Host σ H → Prop
  | reset : Effect h disk .reset [] h.reset
  | still {request : Request} (hreset : request.isReset = false)
    (hcompile : request.isCompile = false) : Effect h disk request [] h
  | reads {request : Request} {next : Host σ H} (hreset : request.isReset = false)
    (hcompile : request.isCompile = false) (hphase : h.phase ≠ .compiled)
    (hnext : h.Reads next) : Effect h disk request [] next
  | compile : Effect h disk .compile (h.passCalls disk) (h.compile disk).2
  | retrieves {request : Request} {file : Path} (hfile : request.file? = some file)
    (hf : h.failed = false) (hkey : h.known (h.keyOf file) = false) :
    Effect h disk request ((h.attempt (h.keyOf file)).passCalls disk)
      ((h.attempt (h.keyOf file)).compile disk).2

theorem retrieve_noting (h : Host σ H) (disk : Disk) (request : Request) {file : Path}
    (hfile : request.file? = some file) :
    ∃ asked, h.Effect disk request asked (h.retrieve disk file).2 ∧ ∀ calls,
      (h.noting calls).retrieve disk file =
        ((h.retrieve disk file).1, (h.retrieve disk file).2.noting (calls ++ asked)) := by
  have hstill : h.Effect disk request [] h :=
    .still (Request.isReset_of_file? hfile) (Request.isCompile_of_file? hfile)
  cases hf : h.failed with
  | true =>
    rw [h.retrieve_failed disk file hf]
    refine ⟨[], hstill, fun calls => ?_⟩
    rw [(h.noting calls).retrieve_failed disk file hf, List.append_nil]
  | false =>
    cases hkey : h.known (h.keyOf file) with
    | true =>
      rw [h.retrieve_known disk file hf hkey]
      refine ⟨[], hstill, fun calls => ?_⟩
      rw [(h.noting calls).retrieve_known disk file hf hkey, List.append_nil]
      rfl
    | false =>
      rw [h.retrieve_new disk file hf hkey]
      refine ⟨(h.attempt (h.keyOf file)).passCalls disk, ?_, fun calls => ?_⟩
      · rw [settle_host]
        exact .retrieves hfile hf hkey
      · have hcompile := (h.attempt (h.keyOf file)).compile_noting calls disk
        rw [(h.noting calls).retrieve_new disk file hf hkey]
        exact (congrArg (settle file) hcompile).trans (settle_noting file _ _ _)

theorem transform_noting (h : Host σ H) (disk : Disk) (request : Request) {file : Path}
    (hfile : request.file? = some file) :
    ∃ asked, h.Effect disk request asked (h.transform disk file).2 ∧ ∀ calls,
      (h.noting calls).transform disk file =
        ((h.transform disk file).1, (h.transform disk file).2.noting (calls ++ asked)) := by
  have houtright (calls : Calls) : (h.noting calls).outright? file = h.outright? file := rfl
  obtain ⟨asked, hasked, hretrieve⟩ := h.retrieve_noting disk request hfile
  simp only [transform_eq, houtright, hretrieve]
  cases h.outright? file with
  | none => exact ⟨asked, hasked, fun calls => rfl⟩
  | some t =>
    refine ⟨[], ?_, fun calls => ?_⟩
    · exact .still (Request.isReset_of_file? hfile) (Request.isCompile_of_file? hfile)
    · rw [List.append_nil]

theorem handle_noted (h : Host σ H) (disk : Disk) (request : Request) :
    ∃ asked, h.Effect disk request asked (h.handle disk request).2 ∧ ∀ calls,
      (h.noting calls).handle disk request =
        ((h.handle disk request).1, (h.handle disk request).2.noting (calls ++ asked)) := by
  cases request with
  | addFile path isRoot =>
    refine ⟨[], ?_, fun calls => ?_⟩
    · by_cases hphase : h.phase = .compiled
      · rw [handle, addFile_compiled h disk path isRoot hphase]
        exact .still rfl rfl
      · exact .reads rfl rfl hphase (h.reads_addFile disk path isRoot)
    · rw [handle, addFile_noting, List.append_nil]
      rfl
  | addEntries rows =>
    refine ⟨[], ?_, fun calls => ?_⟩
    · by_cases hphase : h.phase = .compiled
      · have hsame : (h.addEntries disk rows).2 = h := by
          rw [addEntries_compiled h disk rows hphase]
          split <;> rfl
        rw [handle, hsame]
        exact .still rfl rfl
      · exact .reads rfl rfl hphase (h.reads_addEntries disk rows)
    · rw [handle, addEntries_noting, List.append_nil]
      rfl
  | compile =>
    refine ⟨h.passCalls disk, .compile, fun calls => ?_⟩
    rw [handle, compile_noting]
    rfl
  | output source =>
    refine ⟨[], .still rfl rfl, fun calls => ?_⟩
    rw [List.append_nil]
    rfl
  | retrieve file =>
    obtain ⟨asked, hasked, hretrieve⟩ := h.retrieve_noting disk (.retrieve file) rfl
    refine ⟨asked, hasked, fun calls => ?_⟩
    rw [handle, hretrieve]
    rfl
  | transform file =>
    obtain ⟨asked, hasked, htransform⟩ := h.transform_noting disk (.transform file) rfl
    refine ⟨asked, hasked, fun calls => ?_⟩
    rw [handle, htransform]
    rfl
  | reset =>
    refine ⟨[], .reset, fun calls => ?_⟩
    rw [List.append_nil]
    rfl

theorem handle_noting (h : Host σ H) (calls : Calls) (disk : Disk) (request : Request) :
    (h.noting calls).handle disk request =
      ((h.handle disk request).1,
        (h.handle disk request).2.noting (calls ++ h.calls disk request)) := by
  obtain ⟨asked, -, hhandle⟩ := h.handle_noted disk request
  have hasked : h.calls disk request = asked := by
    rw [Host.calls, hhandle]
    rfl
  rw [hhandle, hasked]

theorem handle_effect (h : Host σ H) (disk : Disk) (request : Request) :
    h.Effect disk request (h.calls disk request) (h.handle disk request).2 := by
  obtain ⟨asked, heffect, hhandle⟩ := h.handle_noted disk request
  rw [Host.calls, hhandle]
  exact heffect

namespace Effect

variable {h next : Host σ H} {disk : Disk} {request : Request} {calls : Calls}

/-- A request without a reset reads files at most, or it starts a pass, on a host that has at
most one more key to show for it. -/
theorem reads_or_passes (he : h.Effect disk request calls next)
    (hreset : request.isReset = false) :
    calls = [] ∧ h.Reads next ∨
      ∃ attempted, let k : Host σ H := { h with attempted := attempted }
        calls = k.passCalls disk ∧ next = (k.compile disk).2 := by
  cases he with
  | reset => cases hreset
  | still _ _ => exact Or.inl ⟨rfl, .refl h⟩
  | reads _ _ _ hnext => exact Or.inl ⟨rfl, hnext⟩
  | compile => exact Or.inr ⟨h.attempted, rfl, rfl⟩
  | retrieves _ _ _ => exact Or.inr ⟨_, rfl, rfl⟩

theorem config (he : h.Effect disk request calls next) : next.config = h.config := by
  cases he with
  | reset => rfl
  | still _ _ => rfl
  | reads _ _ _ hnext => exact hnext.config
  | compile => exact h.compile_config disk
  | retrieves _ _ _ => exact compile_config _ disk

theorem keyOf (he : h.Effect disk request calls next) : next.keyOf = h.keyOf := by
  have hkey (hdir : next.cache.currentDir = h.cache.currentDir) : next.keyOf = h.keyOf := by
    funext file
    rw [Host.keyOf, Host.keyOf, outputKey, outputKey, outputMap, outputMap, he.config,
      FileCache.canonicalize, FileCache.canonicalize, hdir]
  cases he with
  | reset => rfl
  | still _ _ => rfl
  | reads _ _ _ hnext => exact hkey hnext.currentDir
  | compile => exact hkey (h.compile_currentDir disk)
  | retrieves _ _ _ => exact hkey (compile_currentDir _ disk)

theorem starts (he : h.Effect disk request calls next) {file : Path}
    (hfile : request.file? = some file) (hstarted : calls.started = true) :
    h.failed = false ∧ h.known (h.keyOf file) = false ∧
      calls = (h.attempt (h.keyOf file)).passCalls disk ∧
      next = ((h.attempt (h.keyOf file)).compile disk).2 := by
  cases he with
  | reset => cases hstarted
  | still _ _ => cases hstarted
  | reads _ _ _ _ => cases hstarted
  | compile => cases hfile
  | retrieves hfile' hf hkey =>
    rw [hfile] at hfile'
    cases hfile'
    exact ⟨hf, hkey, rfl, rfl⟩

theorem started (he : h.Effect disk request calls next) (hreset : request.isReset = false)
    (hpasses : next.passes = h.passes + 1) : calls.started = true := by
  rcases he.reads_or_passes hreset with ⟨-, hnext⟩ | ⟨attempted, rfl, -⟩
  · rw [hnext.passes] at hpasses
    omega
  · exact (passCalls_reached _ disk).started

end Effect

end Host

end Rebuild
