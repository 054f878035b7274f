import Rebuild.Proofs.Host.Generation
import Rebuild.Proofs.Output.Writes
import Rebuild.Service.Scripted

/-!
# How a reached host stands

An idle host has run no pass, and nothing is left in it of earlier generations.
Each key that is marked had a pass for it. And the outputs of a host are no
more and no less than what the passes of its generation have written: under
each key there is what the latest write has stored under it.
-/

set_option autoImplicit false

namespace Rebuild

variable {σ H : Type}

structure OutputWrite where
  disk : Disk
  path : Path
  data : ByteArray

def Calls.written (c : Calls) (disk : Disk) : List OutputWrite :=
  ((c.emission?.map Emission.writes).getD []).reverse.map fun f => ⟨disk, f.1, f.2⟩

theorem Calls.mem_written {c : Calls} {disk : Disk} {f : OutputWrite} (hf : f ∈ c.written disk) :
    ∃ emission, c.emission? = some emission ∧ (f.path, f.data) ∈ emission.writes := by
  rw [written, List.mem_map] at hf
  obtain ⟨g, hg, rfl⟩ := hf
  rw [List.mem_reverse] at hg
  cases hemission : c.emission? with
  | none =>
    rw [hemission] at hg
    cases hg
  | some emission =>
    rw [hemission] at hg
    exact ⟨emission, rfl, hg⟩

theorem Calls.disk_of_mem_written {c : Calls} {disk : Disk} {f : OutputWrite}
    (hf : f ∈ c.written disk) : f.disk = disk := by
  rw [written, List.mem_map] at hf
  obtain ⟨g, -, rfl⟩ := hf
  rfl

theorem Verdict.Reached.written_eq {mayEmit : List Diagnostic → Bool} {v : Verdict} {c : Calls}
    (h : v.Reached mayEmit c) (disk : Disk) :
    c.written disk = v.writes.reverse.map fun f => ⟨disk, f.1, f.2⟩ := by
  rw [Calls.written, h.emission?_eq]
  cases v <;> rfl

namespace OutputPlace

variable (w : OutputPlace)

/-- What the latest write that has stored anything under a key has stored there. The latest
writes come first. -/
def latest? (written : List OutputWrite) (key : CanonicalPath) : Option ByteArray :=
  (written.find? fun f => w.Stores f.disk f.path key).map OutputWrite.data

theorem exists_of_latest? {written : List OutputWrite} {key : CanonicalPath} {data : ByteArray}
    (h : w.latest? written key = some data) :
    ∃ f ∈ written, w.Stores f.disk f.path key ∧ f.data = data := by
  obtain ⟨f, hf, hdata⟩ := Option.map_eq_some_iff.mp h
  exact ⟨f, List.mem_of_find?_eq_some hf, by simpa using List.find?_some hf, hdata⟩

theorem writeAll_latest? {outputs : Outputs} {written : List OutputWrite} {key : CanonicalPath}
    (h : outputs[key]? = w.latest? written key) (disk : Disk) (writes : List (Path × ByteArray)) :
    (w.writeAll disk outputs writes)[key]? =
      w.latest? ((writes.reverse.map fun f => ⟨disk, f.1, f.2⟩) ++ written) key := by
  rw [writeAll_getElem?, latest?, List.find?_append, List.find?_map, h, latest?]
  simp only [Function.comp_def]
  cases writes.reverse.find? (fun f => w.Stores disk f.1 key) <;> rfl

end OutputPlace

namespace Host

/-! ## Counts and marks -/

structure Fresh (h : Host σ H) : Prop where
  outputs : h.outputs = ∅
  attempted : h.attempted = ∅
  failed : h.failed = false

structure Standing (h : Host σ H) : Prop where
  idle_iff : h.phase = .idle ↔ h.passes = 0
  fresh : h.phase = .idle → h.Fresh
  marks : h.attempted.size ≤ h.passes

namespace Standing

variable {h next : Host σ H}

theorem ofService (service : Service σ H) (state : σ) (config : ResolvedConfig) :
    (Host.ofService service state config).Standing where
  idle_iff := by simp [Host.ofService]
  fresh _ := ⟨rfl, rfl, rfl⟩
  marks := Nat.le_refl 0

theorem reset (h : Host σ H) : h.reset.Standing where
  idle_iff := by simp [Host.reset]
  fresh _ := ⟨rfl, rfl, rfl⟩
  marks := Nat.le_refl 0

theorem around (hs : h.Standing) (state : σ) (listeners : List Listener)
    (rewriter : SourceMapRewriter) : (h.around state listeners rewriter).Standing where
  idle_iff := hs.idle_iff
  fresh hidle := { hs.fresh hidle with }
  marks := hs.marks

theorem reads (hs : h.Standing) (hnext : h.Reads next) : next.Standing where
  idle_iff := by
    rw [hnext.phase, hnext.passes]
    exact hs.idle_iff
  fresh hidle := by
    have hfresh := hs.fresh (hnext.phase ▸ hidle)
    exact ⟨hnext.outputs.trans hfresh.outputs, hnext.attempted.trans hfresh.attempted,
      hnext.failed.trans hfresh.failed⟩
  marks := by
    rw [hnext.attempted, hnext.passes]
    exact hs.marks

/-- A pass makes up for one more mark. -/
theorem compile (hmarks : h.attempted.size ≤ h.passes + 1) (disk : Disk) :
    (h.compile disk).2.Standing where
  idle_iff := by simp [compile_phase, compile_passes]
  fresh hidle := by
    rw [compile_phase] at hidle
    cases hidle
  marks := by
    rw [compile_attempted, compile_passes]
    exact hmarks

theorem effect (hs : h.Standing) {disk : Disk} {request : Request} {calls : Calls}
    (he : h.Effect disk request calls next) : next.Standing := by
  cases he with
  | reset => exact .reset h
  | still _ _ => exact hs
  | reads _ _ _ hnext => exact hs.reads hnext
  | compile => exact .compile (Nat.le_succ_of_le hs.marks) disk
  | @retrieves _ file _ _ _ =>
    -- The key is marked before its pass is counted, so for a moment it has no pass.
    have hinsert : (h.attempted.insert (h.keyOf file)).size ≤ h.attempted.size + 1 :=
      Std.TreeSet.size_insert_le
    exact .compile (hinsert.trans (Nat.succ_le_succ hs.marks)) disk

end Standing

theorem Reachable.standing {h : Host σ H} (hr : h.Reachable) : h.Standing := by
  induction hr with
  | start service state config => exact .ofService service state config
  | handle disk request _ ih => exact ih.effect (handle_effect _ disk request)
  | around state listeners rewriter _ ih => exact ih.around state listeners rewriter

theorem Reachable.fresh {h : Host σ H} (hr : h.Reachable) (hidle : h.phase = .idle) : h.Fresh :=
  hr.standing.fresh hidle

/-! ## Where outputs come from -/

namespace Effect

variable {h next : Host σ H} {disk : Disk} {request : Request} {calls : Calls}

theorem outputs_latest? (he : h.Effect disk request calls next)
    (hreset : request.isReset = false) {written : List OutputWrite} {key : CanonicalPath}
    (hkey : h.outputs[key]? = h.outputPlace.latest? written key) :
    next.outputs[key]? = h.outputPlace.latest? (calls.written disk ++ written) key := by
  rcases he.reads_or_passes hreset with ⟨rfl, hnext⟩ | ⟨attempted, rfl, rfl⟩
  · rw [hnext.outputs]
    exact hkey
  · rw [compile_outputs, (passCalls_reached _ disk).written_eq]
    exact h.outputPlace.writeAll_latest? hkey disk _

theorem outputPlace (he : h.Effect disk request calls next) : next.outputPlace = h.outputPlace := by
  rw [Host.outputPlace, Host.outputPlace, outputMap, outputMap, he.config]

theorem emits (he : h.Effect disk request calls next) (hreset : request.isReset = false)
    {emission : Emission} (hemission : calls.emission? = some emission) :
    calls.built = true ∧ calls.syntaxErrors? = some [] := by
  rcases he.reads_or_passes hreset with ⟨rfl, -⟩ | ⟨attempted, rfl, -⟩
  · cases hemission
  · have hsome := Option.isSome_iff_exists.mpr ⟨emission, hemission⟩
    obtain ⟨hbuilt, hsyn, -⟩ := (passCalls_reached _ disk).emits_iff.mp hsome
    exact ⟨hbuilt, hsyn⟩

end Effect

/-- What has been written in the generation that a run ends in, the latest first, with what was
written before the run. -/
def written (h : Host σ H) (past : List OutputWrite) : List (Turn σ) → List OutputWrite
  | [] => past
  | .handle disk request :: turns =>
    let past := if request.isReset then [] else (h.calls disk request).written disk ++ past
    (h.handle disk request).2.written past turns
  | .around state listeners rewriter :: turns =>
    (h.around state listeners rewriter).written past turns

/-- The outputs of a generation by its writes, and the writes by its deeds. -/
structure Stocked (place : OutputPlace) (h : Host σ H) (past : List Deed)
    (written : List OutputWrite) : Prop where
  place_eq : h.outputPlace = place
  latest : ∀ key, h.outputs[key]? = place.latest? written key
  emitted : ∀ f ∈ written, ∃ d ∈ past, f ∈ d.calls.written f.disk

namespace Stocked

variable {place : OutputPlace} {h next : Host σ H} {past : List Deed} {written : List OutputWrite}

theorem reset (hs : h.Stocked place past written) : h.reset.Stocked place [] [] where
  place_eq := hs.place_eq
  latest _ := rfl
  emitted := nofun

theorem effect (hs : h.Stocked place past written) {disk : Disk} {request : Request}
    {calls : Calls} (hreset : request.isReset = false) (he : h.Effect disk request calls next) :
    next.Stocked place (⟨request, calls⟩ :: past) (calls.written disk ++ written) where
  place_eq := he.outputPlace.trans hs.place_eq
  latest key := by
    have hkey := hs.latest key
    rw [← hs.place_eq] at hkey ⊢
    exact he.outputs_latest? hreset hkey
  emitted f hf := by
    rcases List.mem_append.mp hf with hnew | hold
    · refine ⟨_, List.mem_cons_self .., ?_⟩
      rwa [Calls.disk_of_mem_written hnew]
    · obtain ⟨d, hd, hcalls⟩ := hs.emitted f hold
      exact ⟨d, List.mem_cons_of_mem _ hd, hcalls⟩

theorem after (hs : h.Stocked place past written) (turns : List (Turn σ)) :
    (h.after turns).Stocked place (h.deeds past turns) (h.written written turns) := by
  induction turns generalizing h past written with
  | nil => exact hs
  | cons t turns ih =>
    cases t with
    | around state listeners rewriter => exact ih { hs with }
    | handle disk request =>
      rw [Host.after, turn, deeds, turn, extend, Host.written]
      cases hreset : request.isReset with
      | true =>
        rw [h.handle_reset disk hreset]
        exact ih hs.reset
      | false => exact ih (hs.effect hreset (h.handle_effect disk request))

theorem exists_emission (hs : h.Stocked place past written) {key : CanonicalPath}
    {data : ByteArray} (hdata : h.outputs[key]? = some data) :
    ∃ d ∈ past, ∃ emission path, d.calls.emission? = some emission ∧
      (path, data) ∈ emission.writes := by
  obtain ⟨f, hf, -, rfl⟩ := place.exists_of_latest? ((hs.latest key).symm.trans hdata)
  obtain ⟨d, hd, hcalls⟩ := hs.emitted f hf
  obtain ⟨emission, hemission, hmem⟩ := Calls.mem_written hcalls
  exact ⟨d, hd, emission, f.path, hemission, hmem⟩

theorem isEmpty_of_silent (hs : h.Stocked place past written)
    (hsilent : ∀ d ∈ past, d.calls.emission? = none) : h.outputs.isEmpty = true := by
  rw [Std.TreeMap.isEmpty_iff_forall_not_mem]
  intro key hkey
  rw [Std.TreeMap.mem_iff_isSome_getElem?] at hkey
  obtain ⟨data, hdata⟩ := Option.isSome_iff_exists.mp hkey
  obtain ⟨d, hd, emission, path, hemission, -⟩ := hs.exists_emission hdata
  rw [hsilent d hd] at hemission
  cases hemission

end Stocked

theorem stocked_after (service : Service σ H) (state : σ) (config : ResolvedConfig)
    (turns : List (Turn σ)) :
    let start := ofService service state config
    (start.after turns).Stocked start.outputPlace (start.deeds [] turns)
      (start.written [] turns) := by
  intro start
  have hstart : start.Stocked start.outputPlace [] [] := ⟨rfl, fun _ => rfl, nofun⟩
  exact hstart.after turns

theorem deeds_emit (h : Host σ H) (turns : List (Turn σ)) :
    ∀ d ∈ h.deeds [] turns, ∀ emission, d.calls.emission? = some emission →
      d.calls.built = true ∧ d.calls.syntaxErrors? = some [] := by
  refine deeds_induction (I := fun _ past => ∀ d ∈ past, ∀ emission,
    d.calls.emission? = some emission → d.calls.built = true ∧ d.calls.syntaxErrors? = some [])
    [] nofun turns ?_ ?_ ?_
  · intro h past state listeners rewriter hpast
    exact hpast
  · intro h past disk request calls next hpast hreset he
    exact List.forall_mem_cons.mpr ⟨fun emission => he.emits hreset, hpast⟩
  · intro t _ _ h past _
    exact nofun

/-- What can be said of a host at any time. It is idle as long as it has run no pass, and then it
has no outputs, no marks and no failure. Its marks do not outnumber its passes. Under each key it
has what the latest write of the generation has stored there, and nothing else, so each output was
written by a pass that came to emit, and without such a pass there are no outputs. -/
theorem reached_consistent (service : Service σ H) (state : σ) (config : ResolvedConfig)
    (turns : List (Turn σ)) :
    let start := ofService service state config
    let h := start.after turns
    let past := start.deeds [] turns
    (h.phase = .idle ↔ h.passes = 0) ∧
    (h.phase = .idle →
      h.outputs.isEmpty = true ∧ h.attempted.isEmpty = true ∧ h.failed = false) ∧
    h.attempted.size ≤ h.passes ∧
    (∀ key, h.outputs[key]? = start.outputPlace.latest? (start.written [] turns) key) ∧
    (∀ (key : CanonicalPath) data, h.outputs[key]? = some data → ∃ d ∈ past, ∃ emission path,
      d.calls.emission? = some emission ∧ (path, data) ∈ emission.writes) ∧
    ((∀ d ∈ past, d.calls.built = true →
        ∃ found, d.calls.syntaxErrors? = some found ∧ found ≠ []) →
      h.outputs.isEmpty = true) := by
  intro start h past
  have hstanding : h.Standing := ((Reachable.start service state config).after turns).standing
  have hstocked := stocked_after service state config turns
  refine ⟨hstanding.idle_iff, ?_, hstanding.marks, hstocked.latest, ?_, ?_⟩
  · intro hidle
    have hfresh := hstanding.fresh hidle
    rw [hfresh.outputs, hfresh.attempted]
    exact ⟨Std.TreeMap.isEmpty_emptyc, Std.TreeSet.isEmpty_emptyc, hfresh.failed⟩
  · intro key data hdata
    exact hstocked.exists_emission hdata
  · intro hbroken
    apply hstocked.isEmpty_of_silent
    intro d hd
    cases hemission : d.calls.emission? with
    | none => rfl
    | some emission =>
      obtain ⟨hbuilt, hsyn⟩ := start.deeds_emit turns d hd emission hemission
      obtain ⟨found, hfound, hne⟩ := hbroken d hd hbuilt
      rw [hsyn] at hfound
      cases hfound
      exact absurd rfl hne

theorem reached_consistent_scripted :
    let good : Scripted.Script :=
      { Scripted.Script.blank with emission := .ofWrites [(⟨"/a.js"⟩, "a".toUTF8)] [] false }
    let bad : Scripted.Script :=
      { Scripted.Script.blank with syntaxDiagnostics := [.ofText .error 1005 "';' expected."] }
    let start := ofService (Scripted.service [good, bad]) .empty (.default ⟨"/"⟩)
    let first : List (Turn Scripted.Stage) := [.handle .empty (.retrieve ⟨"/a.ts"⟩)]
    let second : List (Turn Scripted.Stage) :=
      first ++ [.handle .empty .reset, .handle .empty (.retrieve ⟨"/a.ts"⟩)]
    let key := start.keyOf ⟨"/a.ts"⟩
    (start.after first).outputs[key]? = some "a".toUTF8 ∧
    (∃ d ∈ start.deeds [] first, ∃ emission path,
      d.calls.emission? = some emission ∧ (path, "a".toUTF8) ∈ emission.writes) ∧
    (∀ d ∈ start.deeds [] second, d.calls.built = true →
      ∃ found, d.calls.syntaxErrors? = some found ∧ found ≠ []) ∧
    (start.after second).outputs.isEmpty = true := by
  intro good bad start first second key
  have hstored : (start.after first).outputs[key]? = some "a".toUTF8 := by decide +kernel
  have hbroken : ∀ d ∈ start.deeds [] second, d.calls.built = true →
      ∃ found, d.calls.syntaxErrors? = some found ∧ found ≠ [] := by
    intro d hd hbuilt
    have hdeeds : start.deeds [] second = [⟨.retrieve ⟨"/a.ts"⟩, [.build true,
      .syntaxErrors [.ofText .error 1005 "';' expected."]]⟩] := rfl
    rw [hdeeds, List.mem_singleton] at hd
    exact ⟨_, by rw [hd]; rfl, by simp⟩
  have hwritten := reached_consistent (Scripted.service [good, bad]) .empty (.default ⟨"/"⟩) first
  have hempty := reached_consistent (Scripted.service [good, bad]) .empty (.default ⟨"/"⟩) second
  exact ⟨hstored, hwritten.2.2.2.2.1 key _ hstored, hbroken, hempty.2.2.2.2.2 hbroken⟩

end Host

end Rebuild
