import Rebuild.Disk.Edit
import Rebuild.Proofs.Cache.Faithful
import Rebuild.Proofs.Host.Reachable

/-!
# Incremental builds

With a pure service a host that starts a new generation cannot be told from a
new host. What it still knows from earlier builds are parsed forms, and these
are the ones a new host comes to. So both hosts go through any requests side
by side, and only what is counted of reuse and of changes tells them apart.
-/

set_option autoImplicit false

namespace Rebuild

variable {σ H : Type}

/-- What a build tool can see of a host after a request: the answer, what is stored, how the
generation stands, the roots, and what the listener that came last has kept. -/
structure Sight (H : Type) where
  response : Response H
  outputs : Outputs
  failed : Bool
  phase : Phase
  passes : Nat
  roots : List CanonicalPath
  heard : Option Listener

namespace Host

def sight (h : Host σ H) (response : Response H) : Sight H where
  response := response
  outputs := h.outputs
  failed := h.failed
  phase := h.phase
  passes := h.passes
  roots := h.cache.rootNames
  heard := h.listeners.getLast?

def watch (h : Host σ H) : List (Disk × Request) → List (Sight H)
  | [] => []
  | (disk, request) :: rest =>
    let r := h.handle disk request
    r.2.sight r.1 :: r.2.watch rest

/-- Hosts of a pure service that differ in no more than its state, the generation before, the
statistics, and the listeners that came earlier. -/
structure Alike (h k : Host σ H) : Prop where
  pure : h.service.Pure
  service : h.service = k.service
  config : h.config = k.config
  cache : h.cache.Alike h.service.parse k.cache
  outputs : h.outputs = k.outputs
  phase : h.phase = k.phase
  failed : h.failed = k.failed
  passes : h.passes = k.passes
  attempted : h.attempted = k.attempted
  heard : h.listeners.getLast? = k.listeners.getLast?
  rewriter : h.rewriter = k.rewriter

def SameAnswer {α : Type} (r r' : α × Host σ H) : Prop := r.1 = r'.1 ∧ r.2.Alike r'.2

theorem SameAnswer.split {α : Type} {r r' : α × Host σ H} (hs : SameAnswer r r') :
    ∃ answer next next', r = (answer, next) ∧ r' = (answer, next') ∧ next.Alike next' :=
  ⟨r.1, r.2, r'.2, rfl, Prod.ext hs.1.symm rfl, hs.2⟩

namespace Alike

variable {h k : Host σ H}

theorem sight (ha : h.Alike k) (response : Response H) : h.sight response = k.sight response := by
  rw [Host.sight, Host.sight, ha.outputs, ha.failed, ha.phase, ha.passes, ha.cache.rootNames,
    ha.heard]

theorem withState (ha : h.Alike k) (s t : σ) :
    Alike { h with serviceState := s } { k with serviceState := t } := { ha with }

theorem tell (ha : h.Alike k) (e : Event) : (h.tell e).Alike (k.tell e) :=
  { ha with heard := by rw [Host.tell, Host.tell, List.getLast?_map, List.getLast?_map, ha.heard] }

theorem tellAll (ha : h.Alike k) (es : List Event) : (h.tellAll es).Alike (k.tellAll es) := by
  induction es generalizing h k with
  | nil => exact ha
  | cons e es ih => exact ih (ha.tell e)

theorem report (ha : h.Alike k) (ds : List Diagnostic) : (h.report ds).Alike (k.report ds) :=
  ha.tellAll _

theorem fail (ha : h.Alike k) (severe : Bool) : (h.fail severe).Alike (k.fail severe) :=
  { ha with failed := by rw [Host.fail, Host.fail, ha.failed] }

theorem strict (ha : h.Alike k) : h.strict = k.strict := by
  rw [Host.strict, Host.strict, ha.config]

theorem outputKey (ha : h.Alike k) (source : CanonicalPath) :
    h.outputKey source = k.outputKey source := by
  rw [Host.outputKey, Host.outputKey, outputMap, outputMap, ha.config]

theorem canonicalize (ha : h.Alike k) (file : Path) :
    h.cache.canonicalize file = k.cache.canonicalize file := by
  rw [FileCache.canonicalize, FileCache.canonicalize, ha.cache.currentDir]

theorem storeAll (ha : h.Alike k) (disk : Disk) (writes : List (Path × ByteArray)) :
    (h.storeAll disk writes).Alike (k.storeAll disk writes) := by
  have hplace : h.outputPlace = k.outputPlace := by
    rw [outputPlace, outputPlace, outputMap, outputMap, ha.config]
  exact { ha with outputs := by rw [Host.storeAll, Host.storeAll, hplace, ha.outputs] }

theorem attempt (ha : h.Alike k) (key : CanonicalPath) :
    Alike { h with attempted := h.attempted.insert key }
      { k with attempted := k.attempted.insert key } :=
  { ha with attempted := by rw [ha.attempted] }

theorem reset (ha : h.Alike k) : h.reset.Alike k.reset where
  pure := ha.pure
  service := ha.service
  config := ha.config
  cache :=
    { current := rfl
      currentDir := ha.cache.currentDir
      dependencyDir := ha.cache.dependencyDir
      left := ha.cache.left.reset
      right := ha.cache.right.reset }
  outputs := rfl
  phase := rfl
  failed := rfl
  passes := rfl
  attempted := rfl
  heard := ha.heard
  rewriter := ha.rewriter

theorem keep (ha : h.Alike k) {r r' : Option (Admission H) × FileCache H}
    (hanswer : Option.Rel Admission.Alike r.1 r'.1) (hcache : r.2.Alike h.service.parse r'.2) :
    SameAnswer (h.keep r) (k.keep r') := by
  obtain ⟨a, cache⟩ := r
  obtain ⟨b, cache'⟩ := r'
  have hnext : Alike { h with cache := cache } { k with cache := cache' } :=
    { ha with cache := hcache }
  cases hanswer with
  | none => exact ⟨rfl, hnext⟩
  | some hab =>
    rw [Host.keep, Host.keep, hab.parsed, hab.observed]
    exact ⟨rfl, hnext.tell _⟩

theorem read (ha : h.Alike k) (disk : Disk) (path : Path)
    (isRoot : Option Bool) (s t : σ) :
    SameAnswer (h.keep (h.cache.read disk path isRoot h.service.parse s).1)
      (k.keep (k.cache.read disk path isRoot k.service.parse t).1) := by
  obtain ⟨hanswer, hcache⟩ := ha.cache.read ha.pure.parse disk path isRoot s t
  rw [← ha.service]
  exact ha.keep hanswer hcache

theorem addFile (ha : h.Alike k) (disk : Disk) (path : Path)
    (isRoot : Bool) : SameAnswer (h.addFile disk path isRoot) (k.addFile disk path isRoot) := by
  by_cases hphase : h.phase = .compiled
  · rw [addFile_compiled h disk path isRoot hphase,
      addFile_compiled k disk path isRoot (ha.phase ▸ hphase)]
    exact ⟨rfl, ha⟩
  · rw [addFile_idle h disk path isRoot hphase,
      addFile_idle k disk path isRoot (ha.phase ▸ hphase)]
    obtain ⟨hanswer, hnext⟩ :=
      ha.read disk path (some isRoot) h.serviceState k.serviceState
    exact ⟨congrArg Except.ok hanswer, hnext.withState _ _⟩

theorem addRoots (ha : h.Alike k) (disk : Disk) (paths : List Path) :
    SameAnswer (h.addRoots disk paths) (k.addRoots disk paths) := by
  induction paths generalizing h k with
  | nil => exact ⟨rfl, ha⟩
  | cons path paths ih =>
    obtain ⟨answer, next, next', hr, hr', hnext⟩ := (ha.addFile disk path true).split
    rw [Host.addRoots, Host.addRoots, hr, hr']
    cases answer with
    | error e => exact ⟨rfl, hnext⟩
    | ok parsed => exact ih hnext

theorem addEntries (ha : h.Alike k) (disk : Disk) (rows : List EntryRow) :
    SameAnswer (h.addEntries disk rows) (k.addEntries disk rows) := by
  obtain ⟨answer, next, next', hr, hr', hnext⟩ :=
    (ha.addRoots disk (EntrySelection.ofRows rows).entries).split
  rw [Host.addEntries, Host.addEntries, hr, hr']
  cases answer with
  | error e => exact ⟨rfl, hnext⟩
  | ok _ => exact ⟨rfl, hnext⟩

theorem serve (ha : h.Alike k) (disk : Disk) {session session' : Session σ H}
    (hs : session.Alike session') :
    BuiltAlike (h.serve disk session).1 (k.serve disk session').1 ∧
      (h.serve disk session).2.Alike (k.serve disk session').2 := by
  induction hs generalizing h k with
  | finish s t hr =>
    rw [serve_finish, serve_finish]
    exact ⟨hr, ha.withState s t⟩
  | read path s t _ ih =>
    obtain ⟨hanswer, hnext⟩ := ha.read disk path none s t
    rw [serve_read, serve_read]
    dsimp only
    rw [← hanswer]
    exact ih _ _ _ hnext

theorem mayEmit (ha : h.Alike k) : h.mayEmit = k.mayEmit := mayEmit_congr ha.config ha.failed

theorem pass (ha : h.Alike k) (disk : Disk) : SameAnswer (h.pass disk) (k.pass disk) := by
  have hstart : Alike { h with phase := .compiled, passes := h.passes + 1 }
      { k with phase := .compiled, passes := k.passes + 1 } :=
    { ha with phase := rfl, passes := by rw [ha.passes] }
  have hbuild : (h.service.build h.cache.rootNames h.config h.serviceState).Alike
      (k.service.build k.cache.rootNames k.config k.serviceState) := by
    rw [← ha.service, ← ha.config, ← ha.cache.rootNames]
    exact ha.pure.build _ _ _ _
  obtain ⟨hanswer, hnext⟩ := hstart.serve disk hbuild
  rw [Host.pass, Host.pass]
  dsimp only
  generalize Host.serve _ disk (h.service.build _ _ _) = r at *
  generalize Host.serve _ disk (k.service.build _ _ _) = r' at *
  obtain ⟨answer, next⟩ := r
  obtain ⟨answer', next'⟩ := r'
  cases hanswer with
  | failed e => exact ⟨rfl, hnext⟩
  | built hpq =>
    have hverdict := hpq.consult next.mayEmit next.serviceState next'.serviceState
    rw [hnext.mayEmit] at hverdict
    dsimp only
    rw [hnext.mayEmit]
    exact ⟨hverdict, hnext.withState _ _⟩

theorem conclude (ha : h.Alike k) (disk : Disk) (verdict : Verdict) :
    SameAnswer (h.conclude disk verdict) (k.conclude disk verdict) := by
  cases verdict with
  | failed e => exact ⟨rfl, ha⟩
  | malformed found => exact ⟨rfl, (ha.report found).fail true⟩
  | checked found =>
    rw [Host.conclude, Host.conclude, ha.strict]
    exact ⟨rfl, (ha.report found).fail _⟩
  | emitted found emission =>
    rw [Host.conclude, Host.conclude, ha.strict]
    exact ⟨rfl, (((ha.report found).storeAll disk _).report _).fail _⟩

theorem compile (ha : h.Alike k) (disk : Disk) : SameAnswer (h.compile disk) (k.compile disk) := by
  obtain ⟨verdict, next, next', hr, hr', hnext⟩ := (ha.pass disk).split
  rw [Host.compile, Host.compile, hr, hr']
  exact hnext.conclude disk verdict

theorem output? (ha : h.Alike k) (source : Path) : h.output? source = k.output? source := by
  rw [Host.output?, Host.output?, ha.outputs, ha.outputKey, ha.canonicalize]

theorem stored (ha : h.Alike k) (file : Path) : h.stored file = k.stored file :=
  stored_congr ha.config ha.cache.currentDir ha.rewriter (ha.output? file)

theorem retrieve (ha : h.Alike k) (disk : Disk) (file : Path) :
    SameAnswer (h.retrieve disk file) (k.retrieve disk file) := by
  have hkey : h.outputKey (h.cache.canonicalize file) =
      k.outputKey (k.cache.canonicalize file) := by
    rw [ha.outputKey, ha.canonicalize]
  obtain ⟨answer, next, next', hr, hr', hnext⟩ :=
    ((ha.attempt (h.outputKey (h.cache.canonicalize file))).compile disk).split
  rw [hkey] at hr'
  rw [Host.retrieve, Host.retrieve]
  dsimp only
  rw [hr, hr', ha.failed, hkey, ha.outputs, ha.attempted, ha.stored]
  split
  · exact ⟨rfl, ha⟩
  · split
    · exact ⟨rfl, ha⟩
    · cases answer with
      | error e => exact ⟨rfl, hnext⟩
      | ok summary =>
        dsimp only
        rw [hnext.failed, hnext.stored]
        split
        · exact ⟨rfl, hnext⟩
        · exact ⟨rfl, hnext⟩

theorem transform (ha : h.Alike k) (disk : Disk) (file : Path) :
    SameAnswer (h.transform disk file) (k.transform disk file) := by
  obtain ⟨answer, next, next', hr, hr', hnext⟩ := (ha.retrieve disk file).split
  have hcompiles : h.compiles (FileKind.ofPath file) = k.compiles (FileKind.ofPath file) := by
    rw [compiles.eq_def, compiles.eq_def, ha.config]
  rw [Host.transform, Host.transform, hcompiles, ha.failed, hr, hr']
  split
  · exact ⟨rfl, ha⟩
  · split
    · exact ⟨rfl, ha⟩
    · split
      · exact ⟨rfl, ha⟩
      · cases answer with
        | error e => exact ⟨rfl, hnext⟩
        | ok data => exact ⟨rfl, hnext⟩

theorem handle (ha : h.Alike k) (disk : Disk) (request : Request) :
    SameAnswer (h.handle disk request) (k.handle disk request) := by
  cases request with
  | addFile path isRoot =>
    obtain ⟨hanswer, hnext⟩ := ha.addFile disk path isRoot
    exact ⟨congrArg Response.added hanswer, hnext⟩
  | addEntries rows =>
    obtain ⟨hanswer, hnext⟩ := ha.addEntries disk rows
    exact ⟨congrArg Response.gathered hanswer, hnext⟩
  | compile =>
    obtain ⟨hanswer, hnext⟩ := ha.compile disk
    exact ⟨congrArg Response.compiled hanswer, hnext⟩
  | output source => exact ⟨congrArg Response.output (ha.output? source), ha⟩
  | retrieve file =>
    obtain ⟨hanswer, hnext⟩ := ha.retrieve disk file
    exact ⟨congrArg Response.retrieved hanswer, hnext⟩
  | transform file =>
    obtain ⟨hanswer, hnext⟩ := ha.transform disk file
    exact ⟨congrArg Response.transformed hanswer, hnext⟩
  | reset => exact ⟨rfl, ha.reset⟩

theorem watch (ha : h.Alike k) (requests : List (Disk × Request)) :
    h.watch requests = k.watch requests := by
  induction requests generalizing h k with
  | nil => rfl
  | cons first requests ih =>
    obtain ⟨disk, request⟩ := first
    obtain ⟨hanswer, hnext⟩ := ha.handle disk request
    rw [Host.watch, Host.watch]
    rw [hanswer, hnext.sight, ih hnext]

end Alike

theorem kept_faithful : Kept (fun h : Host σ H =>
    h.service.Pure → h.cache.Faithful h.service.parse) where
  around hh _ _ _ := hh
  read hh disk path isRoot state hp := (hh hp).read hp.parse disk path isRoot state
  start hh := hh
  fail hh _ := hh
  storeAll hh _ _ := hh
  attempt hh _ := hh
  reset hh hp := (hh hp).reset

theorem Reachable.faithful {h : Host σ H} (hr : h.Reachable) (hp : h.service.Pure) :
    h.cache.Faithful h.service.parse :=
  hr.kept kept_faithful (fun _ _ _ _ => FileCache.faithful_empty _ _) hp

def renewed (h : Host σ H) (state : σ) : Host σ H :=
  { ofService h.service state h.config with rewriter := h.rewriter }

theorem alike_renewed (h : Host σ H) (hr : h.Reachable) (hp : h.service.Pure) (l : Listener)
    (state : σ) : (h.reset.subscribe l).Alike ((h.renewed state).subscribe l) where
  pure := hp
  service := rfl
  config := rfl
  cache :=
    { current := rfl
      currentDir := hr.placed.currentDir
      dependencyDir := hr.placed.dependencyDir
      left := (hr.faithful hp).reset
      right := FileCache.faithful_empty _ _ }
  outputs := rfl
  phase := rfl
  failed := rfl
  passes := rfl
  attempted := rfl
  heard := by simp [subscribe]
  rewriter := rfl

/-- Incremental builds equal clean builds. After a reset any host does what a new host does,
request by request, and a listener that comes then hears the same from both. -/
theorem watch_reset (h : Host σ H) (hr : h.Reachable) (hp : h.service.Pure) (l : Listener)
    (state : σ) (requests : List (Disk × Request)) :
    (h.reset.subscribe l).watch requests = ((h.renewed state).subscribe l).watch requests :=
  (h.alike_renewed hr hp l state).watch requests

/-- A host of the sketch service that has a root, when the file of it has changed. -/
theorem watch_reset_sketch :
    let before := Disk.empty.apply (.file ⟨"/a.ts"⟩ "one".toUTF8)
    let after := Disk.empty.apply (.file ⟨"/a.ts"⟩ "two".toUTF8)
    let h := ((ofService Sketch.service .empty (.default ⟨"/"⟩)).handle before
      (.addFile ⟨"a.ts"⟩ true)).2
    let requests : List (Disk × Request) :=
      [(before, .addFile ⟨"a.ts"⟩ true), (after, .addFile ⟨"a.ts"⟩ true),
        (after, .retrieve ⟨"a.ts"⟩)]
    h.Reachable ∧ h.service.Pure ∧
      (h.reset.subscribe (.history [])).watch requests =
        ((h.renewed .empty).subscribe (.history [])).watch requests := by
  intro before after h requests
  have hr : h.Reachable := .handle before _ (.start _ _ _)
  have hp : h.service.Pure := by
    rw [handle_service]
    exact Sketch.service_pure
  exact ⟨hr, hp, watch_reset h hr hp (.history []) .empty requests⟩

end Host

end Rebuild
