import Rebuild.Proofs.Host.Generation
import Rebuild.Service.Scripted

/-!
# Failed generations

A generation fails when a pass reports a syntax error, or, to a strict host,
any other diagnostic. The flag says so for good, and with it nothing is
emitted until the next reset: what is stored stays, retrievals are refused,
and no pass starts that was not asked for.
-/

set_option autoImplicit false

namespace Rebuild

variable {σ H : Type}

namespace Host

theorem mayEmit_iff (h : Host σ H) (found : List Diagnostic) :
    h.mayEmit found = true ↔ h.failed = false ∧ ¬(h.strict = true ∧ found ≠ []) := by
  cases hs : h.strict <;> simp [mayEmit, hs]

theorem passCalls_emits_iff (h : Host σ H) (disk : Disk) :
    (h.passCalls disk).emission?.isSome = true ↔
      h.failed = false ∧ (h.passCalls disk).built = true ∧
        (h.passCalls disk).syntaxErrors? = some [] ∧
        ∃ found, (h.passCalls disk).semanticErrors? = some found ∧
          ¬(h.strict = true ∧ found ≠ []) := by
  rw [(h.passCalls_reached disk).emits_iff]
  simp only [mayEmit_iff]
  constructor
  · rintro ⟨hbuilt, hsyn, found, hfound, hf, hs⟩
    exact ⟨hf, hbuilt, hsyn, found, hfound, hs⟩
  · rintro ⟨hf, hbuilt, hsyn, found, hfound, hs⟩
    exact ⟨hbuilt, hsyn, found, hfound, hf, hs⟩

theorem passCalls_failed (h : Host σ H) (disk : Disk) (hf : h.failed = true) :
    (h.passCalls disk).emission? = none := by
  rw [← Option.not_isSome_iff_eq_none, passCalls_emits_iff, hf]
  simp

theorem compile_failed_iff (h : Host σ H) (disk : Disk) :
    (h.compile disk).2.failed = true ↔
      h.failed = true ∨ (h.passCalls disk).built = true ∧ (h.passCalls disk).Fatal h.strict := by
  have hstrict (hs : h.strict = true) (found : List Diagnostic)
      (hmay : h.mayEmit found = true) : found = [] := by
    by_contra hne
    exact ((h.mayEmit_iff found).mp hmay).2 ⟨hs, hne⟩
  rw [compile_failed, Bool.or_eq_true, (h.passCalls_reached disk).fatal_iff h.strict hstrict]

theorem compile_outputs_of_silent (h : Host σ H) (disk : Disk)
    (hs : (h.passCalls disk).emission? = none) : (h.compile disk).2.outputs = h.outputs := by
  rw [(h.passCalls_reached disk).emission?_eq] at hs
  rw [compile_outputs, Verdict.writes_of_silent hs]
  rfl

theorem conclude_summary_of_silent (h : Host σ H) (disk : Disk) {v : Verdict}
    {summary : PassSummary} (hs : v.emission? = none)
    (hok : (h.conclude disk v).1 = .ok summary) :
    summary.emitSkipped = true ∧ summary.written = 0 ∧ summary.emitCount = 0 := by
  cases v with
  | failed e => cases hok
  | malformed found =>
    cases hok
    exact ⟨rfl, rfl, rfl⟩
  | checked found =>
    cases hok
    exact ⟨rfl, rfl, rfl⟩
  | emitted found emission => cases hs

theorem compile_summary_of_silent (h : Host σ H) (disk : Disk) {summary : PassSummary}
    (hs : (h.passCalls disk).emission? = none) (hok : (h.compile disk).1 = .ok summary) :
    summary.emitSkipped = true ∧ summary.written = 0 ∧ summary.emitCount = 0 := by
  rw [(h.passCalls_reached disk).emission?_eq] at hs
  exact conclude_summary_of_silent _ disk hs hok

namespace Effect

variable {h next : Host σ H} {disk : Disk} {request : Request} {calls : Calls}

theorem eq_compile (he : h.Effect disk request calls next) (hstarted : calls.started = true) :
    ∃ attempted, let k : Host σ H := { h with attempted := attempted }
      calls = k.passCalls disk ∧ next = (k.compile disk).2 := by
  cases he with
  | reset => cases hstarted
  | still _ _ => cases hstarted
  | reads _ _ _ _ => cases hstarted
  | compile => exact ⟨h.attempted, rfl, rfl⟩
  | retrieves _ _ _ => exact ⟨_, rfl, rfl⟩

theorem failed_iff (he : h.Effect disk request calls next) (hreset : request.isReset = false) :
    next.failed = true ↔ h.failed = true ∨ calls.built = true ∧ calls.Fatal h.strict := by
  rcases he.reads_or_passes hreset with ⟨rfl, hnext⟩ | ⟨attempted, rfl, rfl⟩
  · simp [Calls.built, hnext.failed]
  · exact compile_failed_iff _ disk

end Effect

theorem failed_iff_deeds (service : Service σ H) (state : σ) (config : ResolvedConfig)
    (turns : List (Turn σ)) :
    let start := ofService service state config
    (start.after turns).failed = true ↔
      ∃ d ∈ start.deeds [] turns,
        d.calls.built = true ∧ d.calls.Fatal config.compiler.noEmitOnError := by
  intro start
  -- The configuration comes along since it says which findings are fatal.
  suffices hall : (start.after turns).config = config ∧ ((start.after turns).failed = true ↔
      ∃ d ∈ start.deeds [] turns,
        d.calls.built = true ∧ d.calls.Fatal config.compiler.noEmitOnError) from hall.2
  refine deeds_induction (I := fun h past => h.config = config ∧ (h.failed = true ↔
    ∃ d ∈ past, d.calls.built = true ∧ d.calls.Fatal config.compiler.noEmitOnError))
    [] ?_ turns ?_ ?_ ?_
  · exact ⟨rfl, by simp [start, ofService]⟩
  · intro h past state listeners rewriter hh
    exact hh
  · rintro h past disk request calls next ⟨hconfig, hflag⟩ hreset he
    refine ⟨he.config.trans hconfig, ?_⟩
    rw [he.failed_iff hreset, hflag, strict, hconfig, List.exists_mem_cons_iff, or_comm]
  · rintro t - - h past ⟨hconfig, -⟩
    exact ⟨hconfig, by simp [reset]⟩

/-- What the flag means, and when a pass emits. The flag is up if a pass of the generation that
had a program found a syntax error, or, for a strict host, anything else. A pass emits if the
flag was down and its findings leave it so, and one that does not emit stores nothing and says
so. -/
theorem flag_gates_emission (service : Service σ H) (state : σ) (config : ResolvedConfig)
    (turns : List (Turn σ)) :
    let start := ofService service state config
    let strict := config.compiler.noEmitOnError
    let h := start.after turns
    (h.failed = true ↔ ∃ d ∈ start.deeds [] turns, d.calls.built = true ∧ d.calls.Fatal strict) ∧
    (∀ disk request, let pass := h.calls disk request
      pass.started = true →
      (pass.built = true → pass.syntaxErrors?.isSome = true) ∧
      (pass.syntaxErrors? = some [] → pass.semanticErrors?.isSome = true) ∧
      (pass.emission?.isSome = true ↔ h.failed = false ∧ pass.built = true ∧
        pass.syntaxErrors? = some [] ∧
        ∃ found, pass.semanticErrors? = some found ∧ ¬(strict = true ∧ found ≠ [])) ∧
      (pass.emission? = none → (h.handle disk request).2.outputs = h.outputs)) ∧
    (∀ attempted disk summary, let k : Host σ H := { h with attempted := attempted }
      (k.passCalls disk).emission? = none → (k.compile disk).1 = .ok summary →
      summary.emitSkipped = true ∧ summary.written = 0 ∧ summary.emitCount = 0) := by
  intro start strict h
  have hstrict : h.strict = strict := by
    rw [Host.strict, config_after]
    rfl
  refine ⟨failed_iff_deeds service state config turns, ?_, ?_⟩
  · intro disk request pass hstarted
    obtain ⟨attempted, hpass, hnext⟩ := (h.handle_effect disk request).eq_compile hstarted
    have hasks := (passCalls_reached { h with attempted := attempted } disk).asks
    have hemits := passCalls_emits_iff { h with attempted := attempted } disk
    rw [← hpass] at hasks hemits
    rw [show Host.strict { h with attempted := attempted } = strict from hstrict] at hemits
    refine ⟨hasks.1, hasks.2, hemits, fun hs => ?_⟩
    rw [hnext]
    exact compile_outputs_of_silent _ disk (hpass ▸ hs)
  · intro attempted disk summary k hs hok
    exact k.compile_summary_of_silent disk hs hok

/-! ## Failed hosts -/

/-- How a host stands that had failed before these deeds. -/
structure Frozen (h k : Host σ H) (past : List Deed) : Prop where
  failed : k.failed = true
  outputs : k.outputs = h.outputs
  passes : k.passes = h.passes + past.countP (·.request.isCompile)
  /-- No pass has emitted. -/
  silent : ∀ d ∈ past, d.calls.emission? = none
  /-- No retrieval has started a pass. -/
  asked : ∀ d ∈ past, d.calls.started = true → d.request.isCompile = true

namespace Frozen

variable {h k next : Host σ H} {past : List Deed}

theorem quiet (hk : h.Frozen k past) (hnext : k.Reads next) {request : Request}
    (hcompile : request.isCompile = false) : h.Frozen next (⟨request, []⟩ :: past) where
  failed := hnext.failed.trans hk.failed
  outputs := hnext.outputs.trans hk.outputs
  passes := by
    rw [hnext.passes, hk.passes, List.countP_cons_of_neg (by simp [hcompile])]
  silent := List.forall_mem_cons.mpr ⟨rfl, hk.silent⟩
  asked := List.forall_mem_cons.mpr ⟨nofun, hk.asked⟩

theorem compile (hk : h.Frozen k past) (disk : Disk) :
    h.Frozen (k.compile disk).2 (⟨.compile, k.passCalls disk⟩ :: past) where
  failed := by rw [compile_failed, hk.failed, Bool.true_or]
  outputs :=
    (k.compile_outputs_of_silent disk (k.passCalls_failed disk hk.failed)).trans hk.outputs
  passes := by
    rw [compile_passes, hk.passes, List.countP_cons_of_pos rfl, Nat.add_assoc]
  silent := List.forall_mem_cons.mpr ⟨k.passCalls_failed disk hk.failed, hk.silent⟩
  asked := List.forall_mem_cons.mpr ⟨fun _ => rfl, hk.asked⟩

theorem effect (hk : h.Frozen k past) {disk : Disk} {request : Request} {calls : Calls}
    (hreset : request.isReset = false) (he : k.Effect disk request calls next) :
    h.Frozen next (⟨request, calls⟩ :: past) := by
  cases he with
  | reset => cases hreset
  | still _ hcompile => exact hk.quiet (.refl k) hcompile
  | reads _ hcompile _ hnext => exact hk.quiet hnext hcompile
  | compile => exact hk.compile disk
  | retrieves _ hf _ =>
    rw [hk.failed] at hf
    cases hf

end Frozen

theorem frozen_after (h : Host σ H) (hf : h.failed = true) (turns : List (Turn σ))
    (hturns : ∀ t ∈ turns, t.isReset = false) :
    h.Frozen (h.after turns) (h.deeds [] turns) := by
  refine deeds_induction (I := fun k past => h.Frozen k past) [] ?_ turns ?_ ?_
    (Turn.absurd_reset hturns)
  · exact ⟨hf, rfl, rfl, by simp, by simp⟩
  · intro k past state listeners rewriter hk
    exact { hk with }
  · intro k past disk request calls next hk hreset he
    exact hk.effect hreset he

/-- A failed generation is frozen. Whatever comes before the next reset, the flag stays up,
nothing is emitted or stored, retrievals are refused and transforms have no data, and the only
passes are those that were asked for. -/
theorem failed_stays_frozen (h : Host σ H) (hf : h.failed = true) (turns : List (Turn σ))
    (hturns : ∀ t ∈ turns, t.isReset = false) :
    let k := h.after turns
    h.Frozen k (h.deeds [] turns) ∧
    (∀ disk file, k.retrieve disk file = (.error (.compileFailed file), k)) ∧
    (∀ disk file, k.transform disk file = (.ok .empty, k) ∨
      k.transform disk file = (.ok .passThrough, k)) := by
  have hk := h.frozen_after hf turns hturns
  refine ⟨hk, fun disk file => retrieve_failed _ disk file hk.failed, fun disk file => ?_⟩
  rw [transform_eq]
  rcases (h.after turns).outright?_cases file with ht | ht | ⟨hfailed, -⟩
  · exact Or.inl (by rw [ht])
  · exact Or.inr (by rw [ht])
  · rw [hk.failed] at hfailed
    cases hfailed

theorem failed_stays_frozen_scripted :
    let good : Scripted.Script :=
      { Scripted.Script.blank with emission := .ofWrites [(⟨"/a.js"⟩, "a".toUTF8)] [] false }
    let bad : Scripted.Script :=
      { Scripted.Script.blank with syntaxDiagnostics := [.ofText .error 1005 "';' expected."] }
    let h := (ofService (Scripted.service [good, bad]) .empty (.default ⟨"/"⟩)).after
      [.handle .empty .compile, .handle .empty .compile]
    let turns : List (Turn Scripted.Stage) :=
      [.handle .empty .compile, .handle .empty (.retrieve ⟨"/a.ts"⟩)]
    h.failed = true ∧ (∀ t ∈ turns, t.isReset = false) ∧
      h.Frozen (h.after turns) (h.deeds [] turns) := by
  intro good bad h turns
  have hf : h.failed = true := rfl
  have hturns : ∀ t ∈ turns, t.isReset = false := by simp [turns, Turn.isReset, Request.isReset]
  exact ⟨hf, hturns, (failed_stays_frozen h hf turns hturns).1⟩

end Host

end Rebuild
