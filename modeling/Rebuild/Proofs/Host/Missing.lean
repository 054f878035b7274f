import Mathlib.Data.List.Induction
import Rebuild.Proofs.Host.Retries
import Rebuild.Service.Scripted

/-!
# Missing outputs

That there is no output is said of a key for which a pass was run, but this
pass need not have completed. A key is marked before its pass starts. So if
the pass breaks off, its error is handed over once, and the next retrieval of
the key only finds that there is nothing.
-/

set_option autoImplicit false

namespace Rebuild

variable {σ H : Type}

def Response.internal? : Response H → Option InternalError
  | .retrieved (.error (.internal e)) => some e
  | .transformed (.error (.internal e)) => some e
  | _ => none

namespace Host

/-! ## Passes that break off -/

theorem compile_answer (h : Host σ H) (disk : Disk) :
    (∃ summary, (h.compile disk).1 = .ok summary) ∧ (h.passCalls disk).built = true ∨
      (∃ e, (h.compile disk).1 = .error (.internal e)) ∧ (h.passCalls disk).built = false := by
  have hreached := h.passCalls_reached disk
  have hanswer : (h.compile disk).1 = ((h.pass disk).2.conclude disk (h.pass disk).1).1 := rfl
  rw [hanswer]
  generalize (h.pass disk).1 = v at hreached ⊢
  generalize h.passCalls disk = calls at hreached ⊢
  cases hreached with
  | failed e => exact Or.inr ⟨⟨e, rfl⟩, rfl⟩
  | malformed _ => exact Or.inl ⟨⟨_, rfl⟩, rfl⟩
  | checked _ _ => exact Or.inl ⟨⟨_, rfl⟩, rfl⟩
  | emitted _ _ _ => exact Or.inl ⟨⟨_, rfl⟩, rfl⟩

theorem settle_missing (h : Host σ H) (disk : Disk) (file : Path) {wanted : Path}
    (hmissing : (settle file (h.compile disk)).1 = .error (.noOutput wanted)) :
    (h.passCalls disk).built = true := by
  rcases h.compile_answer disk with ⟨-, hbuilt⟩ | ⟨⟨e, he⟩, -⟩
  · exact hbuilt
  · rw [show h.compile disk = (.error (.internal e), (h.compile disk).2) from Prod.ext he rfl,
      settle] at hmissing
    cases hmissing

namespace Effect

variable {h next : Host σ H} {disk : Disk} {request : Request} {calls : Calls}

theorem attempted (he : h.Effect disk request calls next) {key : CanonicalPath}
    (hkey : key ∈ next.attempted) :
    request.isReset = false ∧
      (key ∈ h.attempted ∨
        calls.started = true ∧ ∃ file, request.file? = some file ∧ h.keyOf file = key) := by
  cases he with
  | reset => exact absurd hkey Std.TreeSet.not_mem_emptyc
  | still hreset _ => exact ⟨hreset, Or.inl hkey⟩
  | reads hreset _ _ hnext => exact ⟨hreset, Or.inl (hnext.attempted ▸ hkey)⟩
  | compile =>
    rw [compile_attempted] at hkey
    exact ⟨rfl, Or.inl hkey⟩
  | retrieves hfile _ _ =>
    rw [compile_attempted] at hkey
    refine ⟨Request.isReset_of_file? hfile, ?_⟩
    rcases Std.TreeSet.mem_insert.mp hkey with heq | hmem
    · exact Or.inr ⟨(passCalls_reached _ disk).started, _, hfile,
        Std.LawfulEqCmp.eq_of_compare heq⟩
    · exact Or.inl hmem

end Effect

theorem handle_internal (h : Host σ H) (disk : Disk) {request : Request} {file : Path}
    (hfile : request.file? = some file) (hstarted : (h.calls disk request).started = true)
    (hbuilt : (h.calls disk request).built = false) :
    ∃ e, (h.handle disk request).1.internal? = some e := by
  obtain ⟨hf, hkey, hcalls, hnext⟩ := (h.handle_effect disk request).starts hfile hstarted
  have hmoved : (h.handle disk request).2 ≠ h := by
    intro hsame
    have hpasses := congrArg Host.passes (hsame.symm.trans hnext)
    rw [compile_passes] at hpasses
    exact absurd hpasses (Nat.ne_of_lt (Nat.lt_succ_self h.passes))
  rw [hcalls] at hbuilt
  have hretrieve : ∃ e, (h.retrieve disk file).1 = .error (.internal e) := by
    rcases (h.attempt (h.keyOf file)).compile_answer disk with ⟨-, hyes⟩ | ⟨⟨e, he⟩, -⟩
    · rw [hbuilt] at hyes
      cases hyes
    · refine ⟨e, ?_⟩
      rw [h.retrieve_new disk file hf hkey, show (h.attempt (h.keyOf file)).compile disk =
        (.error (.internal e), ((h.attempt (h.keyOf file)).compile disk).2) from Prod.ext he rfl]
      rfl
  obtain ⟨e, he⟩ := hretrieve
  refine ⟨e, ?_⟩
  rcases h.handle_retrieval disk hfile with hr | hr | hr | hr
  · exact absurd (congrArg Prod.snd hr) hmoved
  · exact absurd (congrArg Prod.snd hr) hmoved
  · rw [hr, he]
    rfl
  · rw [hr, he]
    rfl

/-! ## Where a mark comes from -/

/-- The request of a run that has started the pass of a key, in the generation that the run ends
in. -/
structure TriedBy (start : Host σ H) (turns earlier : List (Turn σ)) (disk : Disk)
    (request : Request) (key : CanonicalPath) : Prop where
  run : ∃ later, turns = earlier ++ .handle disk request :: later ∧
    ∀ t ∈ later, t.isReset = false
  wanted : ∃ file, request.file? = some file ∧ start.keyOf file = key
  started : ((start.after earlier).calls disk request).started = true

namespace TriedBy

variable {start : Host σ H} {turns earlier : List (Turn σ)} {disk : Disk} {request : Request}
  {key : CanonicalPath}

theorem more (ht : start.TriedBy turns earlier disk request key) {t : Turn σ}
    (hreset : t.isReset = false) : start.TriedBy (turns ++ [t]) earlier disk request key where
  run := by
    obtain ⟨later, hturns, hlater⟩ := ht.run
    refine ⟨later ++ [t], by rw [hturns, List.append_assoc, List.cons_append], ?_⟩
    simpa [or_imp, forall_and, hreset] using hlater
  wanted := ht.wanted
  started := ht.started

end TriedBy

theorem exists_triedBy (start : Host σ H) (hstart : start.attempted = ∅) (turns : List (Turn σ))
    {key : CanonicalPath} (hkey : key ∈ (start.after turns).attempted) :
    ∃ earlier disk request, start.TriedBy turns earlier disk request key := by
  induction turns using List.reverseRecOn with
  | nil =>
    rw [after, hstart] at hkey
    exact absurd hkey Std.TreeSet.not_mem_emptyc
  | append_singleton turns t ih =>
    rw [after_append] at hkey
    cases t with
    | around state listeners rewriter =>
      obtain ⟨earlier, disk, request, ht⟩ := ih hkey
      exact ⟨earlier, disk, request, ht.more rfl⟩
    | handle disk request =>
      obtain ⟨hreset, hold | ⟨hstarted, file, hfile, hkeyOf⟩⟩ :=
        ((start.after turns).handle_effect disk request).attempted hkey
      · obtain ⟨earlier, disk', request', ht⟩ := ih hold
        exact ⟨earlier, disk', request', ht.more hreset⟩
      · refine ⟨turns, disk, request, ⟨[], rfl, by simp⟩, ⟨file, hfile, ?_⟩, hstarted⟩
        rw [← hkeyOf, keyOf_after]

theorem deeds_append (h : Host σ H) (past : List Deed) (turns rest : List (Turn σ)) :
    h.deeds past (turns ++ rest) = (h.after turns).deeds (h.deeds past turns) rest := by
  induction turns generalizing h past with
  | nil => rfl
  | cons t turns ih => exact ih _ _

theorem mem_deeds (h : Host σ H) {past : List Deed} {d : Deed} (hd : d ∈ past)
    (turns : List (Turn σ)) (hturns : ∀ t ∈ turns, t.isReset = false) :
    d ∈ h.deeds past turns :=
  deeds_induction (I := fun _ past => d ∈ past) past hd turns (fun _ _ _ _ _ hmem => hmem)
    (fun _ _ _ _ _ _ hmem _ _ => List.mem_cons_of_mem _ hmem) (Turn.absurd_reset hturns)

theorem TriedBy.mem_deeds {start : Host σ H} {turns earlier : List (Turn σ)} {disk : Disk}
    {request : Request} {key : CanonicalPath} (ht : start.TriedBy turns earlier disk request key) :
    ⟨request, (start.after earlier).calls disk request⟩ ∈ start.deeds [] turns := by
  obtain ⟨later, hturns, hlater⟩ := ht.run
  obtain ⟨file, hfile, -⟩ := ht.wanted
  rw [hturns, deeds_append, deeds, extend, Request.isReset_of_file? hfile]
  exact Host.mem_deeds _ (List.mem_cons_self ..) later hlater

/-! ## What a missing output tells -/

theorem retrieve_missing (h : Host σ H) (disk : Disk) (file : Path) {wanted : Path}
    (hmissing : (h.retrieve disk file).1 = .error (.noOutput wanted)) :
    ((h.calls disk (.retrieve file)).started = true →
      (h.calls disk (.retrieve file)).built = true) ∧
    ((h.calls disk (.retrieve file)).started = true ∨ h.keyOf file ∈ h.attempted) := by
  have heffect := h.handle_effect disk (.retrieve file)
  constructor
  · intro hstarted
    obtain ⟨hf, hkey, hcalls, -⟩ := heffect.starts rfl hstarted
    rw [h.retrieve_new disk file hf hkey] at hmissing
    rw [hcalls]
    exact settle_missing _ disk file hmissing
  · cases hf : h.failed with
    | true =>
      rw [h.retrieve_failed disk file hf] at hmissing
      cases hmissing
    | false =>
      cases hkey : h.known (h.keyOf file) with
      | true =>
        rw [h.retrieve_known disk file hf hkey] at hmissing
        rw [known, Bool.or_eq_true] at hkey
        refine Or.inr (hkey.resolve_left fun hstored => ?_)
        obtain ⟨data, hdata⟩ := (h.stored_eq_ok_iff file).mpr hstored
        rw [hdata] at hmissing
        cases hmissing
      | false =>
        have hpasses : (h.handle disk (.retrieve file)).2.passes = h.passes + 1 := by
          rw [handle, h.retrieve_new disk file hf hkey, settle_host]
          exact compile_passes _ disk
        exact Or.inl (heffect.started rfl hpasses)

/-- An output may be missing though no pass has completed: the only pass was that of the first
retrieval, and it broke off. -/
theorem missing_unbuilt :
    let broken : Scripted.Script := { Scripted.Script.blank with failure := some "no program" }
    let start := ofService (Scripted.service [broken]) .empty (.default ⟨"/"⟩)
    let turns : List (Turn Scripted.Stage) := [.handle .empty (.retrieve ⟨"/a.ts"⟩)]
    let h := start.after turns
    h.Reachable ∧ (h.retrieve .empty ⟨"/a.ts"⟩).1 = .error (.noOutput ⟨"/a.ts"⟩) ∧
      ¬((∃ d ∈ start.deeds [] turns, d.calls.built = true) ∨
        (h.calls .empty (.retrieve ⟨"/a.ts"⟩)).built = true) := by
  intro broken start turns h
  exact ⟨(Reachable.start _ _ _).after turns, by decide +kernel, by decide +kernel⟩

/-- A missing output had its pass. If a retrieval finds no output, some pass of the generation
has completed, or else an earlier retrieval of its key has started a pass that broke off, and was
answered with the error of the build. A retrieval that starts a pass itself finds no output only if
this pass has completed. -/
theorem missing_had_pass (service : Service σ H) (state : σ) (config : ResolvedConfig)
    (turns : List (Turn σ)) (disk : Disk) (file wanted : Path)
    (hmissing : (((ofService service state config).after turns).retrieve disk file).1 =
      .error (.noOutput wanted)) :
    let start := ofService service state config
    let h := start.after turns
    let pass := h.calls disk (.retrieve file)
    (pass.started = true → pass.built = true) ∧
    ((∃ d ∈ start.deeds [] turns, d.calls.built = true) ∨ pass.built = true ∨
      ∃ earlier disk' request', start.TriedBy turns earlier disk' request' (start.keyOf file) ∧
        ∃ e, ((start.after earlier).handle disk' request').1.internal? = some e) := by
  intro start h pass
  obtain ⟨hcompleted, hstarted | hkey⟩ := h.retrieve_missing disk file hmissing
  · exact ⟨hcompleted, Or.inr (Or.inl (hcompleted hstarted))⟩
  · refine ⟨hcompleted, ?_⟩
    rw [keyOf_after] at hkey
    obtain ⟨earlier, disk', request', ht⟩ := start.exists_triedBy rfl turns hkey
    cases hbuilt : ((start.after earlier).calls disk' request').built with
    | true => exact Or.inl ⟨_, ht.mem_deeds, hbuilt⟩
    | false =>
      obtain ⟨file', hfile', -⟩ := ht.wanted
      exact Or.inr (Or.inr ⟨earlier, disk', request', ht,
        handle_internal _ disk' hfile' ht.started hbuilt⟩)

theorem missing_had_pass_broken :
    let broken : Scripted.Script := { Scripted.Script.blank with failure := some "no program" }
    let start := ofService (Scripted.service [broken]) .empty (.default ⟨"/"⟩)
    let turns : List (Turn Scripted.Stage) := [.handle .empty (.retrieve ⟨"/a.ts"⟩)]
    let h := start.after turns
    let pass := h.calls .empty (.retrieve ⟨"/a.ts"⟩)
    (h.retrieve .empty ⟨"/a.ts"⟩).1 = .error (.noOutput ⟨"/a.ts"⟩) ∧
    ((∃ d ∈ start.deeds [] turns, d.calls.built = true) ∨ pass.built = true ∨
      ∃ earlier disk request, start.TriedBy turns earlier disk request (start.keyOf ⟨"/a.ts"⟩) ∧
        ∃ e, ((start.after earlier).handle disk request).1.internal? = some e) := by
  intro broken start turns h pass
  have hmissing : (h.retrieve .empty ⟨"/a.ts"⟩).1 = .error (.noOutput ⟨"/a.ts"⟩) := by
    decide +kernel
  exact ⟨hmissing, (missing_had_pass _ _ _ turns .empty ⟨"/a.ts"⟩ _ hmissing).2⟩

end Host

end Rebuild
