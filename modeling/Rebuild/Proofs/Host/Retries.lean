import Rebuild.Proofs.Host.Generation

/-!
# Retries

A key starts a pass at most once in a generation, and a key with an output
starts none. So the passes of a generation are those that were asked for and
one for each key that had to start one, and an output that was handed over
once is there for the rest of the generation.
-/

set_option autoImplicit false

namespace Rebuild

variable {σ H : Type}

def Deed.starter? (keyOf : Path → CanonicalPath) (d : Deed) : Option CanonicalPath :=
  if d.calls.started then d.request.file?.map keyOf else none

def starters (keyOf : Path → CanonicalPath) (past : List Deed) : List CanonicalPath :=
  past.filterMap (Deed.starter? keyOf)

namespace Response

variable {H : Type}

def delivered : Response H → Bool
  | .retrieved (.ok _) => true
  | .transformed (.ok (.compiled _)) => true
  | _ => false

def lacksOutput : Response H → Bool
  | .retrieved (.error (.noOutput _)) => true
  | .transformed (.error (.noOutput _)) => true
  | _ => false

theorem delivered_compiled (answer : Except HostError ByteArray) :
    (transformed (answer.map .compiled) : Response H).delivered =
      (retrieved answer : Response H).delivered := by
  cases answer <;> rfl

theorem lacksOutput_compiled (answer : Except HostError ByteArray) :
    (transformed (answer.map .compiled) : Response H).lacksOutput =
      (retrieved answer : Response H).lacksOutput := by
  cases answer with
  | ok data => rfl
  | error e => cases e <;> rfl

end Response

namespace OutputPlace

theorem mem_write (w : OutputPlace) (disk : Disk) {outputs : Outputs} {key : CanonicalPath}
    (hkey : key ∈ outputs) (path : Path) (data : ByteArray) :
    key ∈ w.write disk outputs path data := by
  rw [write]
  split
  · exact Std.TreeMap.mem_insert.mpr (Or.inr (Std.TreeMap.mem_insert.mpr (Or.inr hkey)))
  · exact Std.TreeMap.mem_insert.mpr (Or.inr hkey)

theorem mem_writeAll (w : OutputPlace) (disk : Disk) {outputs : Outputs} {key : CanonicalPath}
    (hkey : key ∈ outputs) (writes : List (Path × ByteArray)) :
    key ∈ w.writeAll disk outputs writes := by
  induction writes generalizing outputs with
  | nil => exact hkey
  | cons f writes ih =>
    rw [writeAll, List.foldl_cons]
    exact ih (w.mem_write disk hkey f.1 f.2)

end OutputPlace

namespace Host

theorem known_of_mem (h : Host σ H) {key : CanonicalPath} (hkey : key ∈ h.outputs) :
    h.known key = true := by
  rw [known, Bool.or_eq_true]
  exact Or.inl hkey

theorem stored_eq_ok_iff (h : Host σ H) (file : Path) :
    (∃ data, h.stored file = .ok data) ↔ h.keyOf file ∈ h.outputs := by
  rw [stored, output?, Std.TreeMap.mem_iff_isSome_getElem?]
  change _ ↔ (h.outputs[h.outputKey (h.cache.canonicalize file)]?).isSome = true
  cases h.outputs[h.outputKey (h.cache.canonicalize file)]? with
  | none => simp
  | some data => simp

namespace Effect

variable {h next : Host σ H} {disk : Disk} {request : Request} {calls : Calls}

theorem mem_outputs (he : h.Effect disk request calls next) (hreset : request.isReset = false)
    {key : CanonicalPath} (hkey : key ∈ h.outputs) : key ∈ next.outputs := by
  rcases he.reads_or_passes hreset with ⟨-, hnext⟩ | ⟨attempted, -, rfl⟩
  · rw [hnext.outputs]
    exact hkey
  · rw [compile_outputs]
    exact OutputPlace.mem_writeAll _ disk hkey _

theorem calls_of_known (he : h.Effect disk request calls next) {file : Path}
    (hfile : request.file? = some file) (hkey : h.known (h.keyOf file) = true) : calls = [] := by
  cases he with
  | reset => rfl
  | still _ _ => rfl
  | reads _ _ _ _ => rfl
  | compile => cases hfile
  | retrieves hfile' _ hnew =>
    rw [hfile] at hfile'
    cases hfile'
    rw [hkey] at hnew
    cases hnew

end Effect

theorem mem_outputs_after (h : Host σ H) {key : CanonicalPath} (hkey : key ∈ h.outputs)
    (turns : List (Turn σ)) (hturns : ∀ t ∈ turns, t.isReset = false) :
    key ∈ (h.after turns).outputs := by
  refine after_induction (P := fun k => key ∈ k.outputs) hkey turns ?_ ?_
    (Turn.absurd_reset hturns)
  · intro k state listeners rewriter hk
    exact hk
  · intro k disk request calls next hk hreset he
    exact he.mem_outputs hreset hk

/-- The count of the passes of a generation by what has started them. -/
structure Accounted (keyOf : Path → CanonicalPath) (h : Host σ H) (past : List Deed) : Prop where
  keyOf_eq : h.keyOf = keyOf
  passes : h.passes = past.countP (·.request.isCompile) + (starters keyOf past).length
  nodup : (starters keyOf past).Nodup
  attempted : ∀ key ∈ starters keyOf past, key ∈ h.attempted

namespace Accounted

variable {keyOf : Path → CanonicalPath} {h next : Host σ H} {past : List Deed}

theorem quiet (ha : h.Accounted keyOf past) (hnext : h.Reads next) (hkey : next.keyOf = h.keyOf)
    {request : Request} (hcompile : request.isCompile = false) :
    next.Accounted keyOf (⟨request, []⟩ :: past) where
  keyOf_eq := hkey.trans ha.keyOf_eq
  passes := by
    rw [hnext.passes, ha.passes, List.countP_cons_of_neg (by simp [hcompile])]
    rfl
  nodup := ha.nodup
  attempted := by
    rw [hnext.attempted]
    exact ha.attempted

theorem compile (ha : h.Accounted keyOf past) (disk : Disk) :
    (h.compile disk).2.Accounted keyOf (⟨.compile, h.passCalls disk⟩ :: past) := by
  have hstarters : starters keyOf (⟨.compile, h.passCalls disk⟩ :: past) = starters keyOf past :=
    List.filterMap_cons_none (by simp [Deed.starter?, Request.file?])
  refine ⟨?_, ?_, ?_, ?_⟩
  · exact Effect.compile.keyOf.trans ha.keyOf_eq
  · rw [compile_passes, ha.passes, hstarters, List.countP_cons_of_pos rfl]
    omega
  · rw [hstarters]
    exact ha.nodup
  · rw [hstarters, compile_attempted]
    exact ha.attempted

theorem retrieves (ha : h.Accounted keyOf past) (disk : Disk) {request : Request} {file : Path}
    (hfile : request.file? = some file) (hf : h.failed = false)
    (hkey : h.known (h.keyOf file) = false) :
    ((h.attempt (h.keyOf file)).compile disk).2.Accounted keyOf
      (⟨request, (h.attempt (h.keyOf file)).passCalls disk⟩ :: past) := by
  have hstarted := ((h.attempt (h.keyOf file)).passCalls_reached disk).started
  have hstarters : starters keyOf (⟨request, (h.attempt (h.keyOf file)).passCalls disk⟩ :: past) =
      h.keyOf file :: starters keyOf past :=
    List.filterMap_cons_some (by
      rw [Deed.starter?, if_pos hstarted, hfile, ← ha.keyOf_eq]
      rfl)
  have hfresh : h.keyOf file ∉ starters keyOf past := by
    intro hmem
    rw [known, Bool.or_eq_false_iff] at hkey
    have hattempted : h.attempted.contains (h.keyOf file) = true := ha.attempted _ hmem
    rw [hkey.2] at hattempted
    cases hattempted
  refine ⟨?_, ?_, ?_, ?_⟩
  · exact (Effect.retrieves hfile hf hkey).keyOf.trans ha.keyOf_eq
  · have hcompile := Request.isCompile_of_file? hfile
    rw [compile_passes, hstarters, List.countP_cons_of_neg (by simp [hcompile]),
      List.length_cons, ← Nat.add_assoc, ← ha.passes]
    rfl
  · rw [hstarters]
    exact List.nodup_cons.mpr ⟨hfresh, ha.nodup⟩
  · rw [hstarters, compile_attempted]
    refine List.forall_mem_cons.mpr ⟨?_, fun key hmem => ?_⟩
    · exact Std.TreeSet.mem_insert_self
    · exact Std.TreeSet.mem_insert.mpr (Or.inr (ha.attempted key hmem))

theorem effect (ha : h.Accounted keyOf past) {disk : Disk} {request : Request} {calls : Calls}
    (hreset : request.isReset = false) (he : h.Effect disk request calls next) :
    next.Accounted keyOf (⟨request, calls⟩ :: past) := by
  have hkey := he.keyOf
  cases he with
  | reset => cases hreset
  | still _ hcompile => exact ha.quiet (.refl h) hkey hcompile
  | reads _ hcompile _ hnext => exact ha.quiet hnext hkey hcompile
  | compile => exact ha.compile disk
  | retrieves hfile hf hnew => exact ha.retrieves disk hfile hf hnew

end Accounted

theorem accounted_after (service : Service σ H) (state : σ) (config : ResolvedConfig)
    (turns : List (Turn σ)) :
    let start := ofService service state config
    (start.after turns).Accounted start.keyOf (start.deeds [] turns) := by
  intro start
  refine deeds_induction (I := fun h past => h.Accounted start.keyOf past) [] ?_ turns ?_ ?_ ?_
  · exact ⟨rfl, rfl, List.nodup_nil, by simp [starters]⟩
  · intro h past state listeners rewriter ha
    exact { ha with }
  · intro h past disk request calls next ha hreset he
    exact ha.effect hreset he
  · intro t _ _ h past ha
    exact ⟨ha.keyOf_eq, rfl, List.nodup_nil, by simp [starters]⟩

/-! ## Outputs that were handed over -/

theorem settle_delivers (file : Path) (r : Except HostError PassSummary × Host σ H)
    {data : ByteArray} (hok : (settle file r).1 = .ok data) : r.2.keyOf file ∈ r.2.outputs := by
  obtain ⟨answer, h⟩ := r
  cases answer with
  | error e => cases hok
  | ok summary =>
    rw [settle] at hok
    split at hok
    · cases hok
    · exact (h.stored_eq_ok_iff file).mp ⟨data, hok⟩

theorem retrieve_delivers (h : Host σ H) (disk : Disk) (file : Path) {data : ByteArray}
    (hok : (h.retrieve disk file).1 = .ok data) :
    h.keyOf file ∈ (h.retrieve disk file).2.outputs := by
  cases hf : h.failed with
  | true =>
    rw [h.retrieve_failed disk file hf] at hok
    cases hok
  | false =>
    cases hkey : h.known (h.keyOf file) with
    | true =>
      rw [h.retrieve_known disk file hf hkey] at hok ⊢
      exact (h.stored_eq_ok_iff file).mp ⟨data, hok⟩
    | false =>
      have heffect : h.Effect disk (.retrieve file) _ _ := .retrieves rfl hf hkey
      rw [h.retrieve_new disk file hf hkey] at hok ⊢
      have hstored := settle_delivers file ((h.attempt (h.keyOf file)).compile disk) hok
      rw [heffect.keyOf] at hstored
      rwa [settle_host]

theorem retrieve_stored (h : Host σ H) (disk : Disk) (file : Path)
    (hkey : h.keyOf file ∈ h.outputs) :
    (h.retrieve disk file).1 = .error (.compileFailed file) ∨
      ∃ data, (h.retrieve disk file).1 = .ok data := by
  cases hf : h.failed with
  | true => exact Or.inl (by rw [h.retrieve_failed disk file hf])
  | false =>
    rw [h.retrieve_known disk file hf (h.known_of_mem hkey)]
    exact Or.inr ((h.stored_eq_ok_iff file).mpr hkey)

theorem handle_answers (h : Host σ H) (disk : Disk) {request : Request} {file : Path}
    (hfile : request.file? = some file) :
    let r := h.handle disk request
    let wanted := h.retrieve disk file
    (r.1.delivered = false ∧ r.1.lacksOutput = false) ∨
      (r.1.delivered = (Response.retrieved wanted.1 : Response H).delivered ∧
        r.1.lacksOutput = (Response.retrieved wanted.1 : Response H).lacksOutput ∧
        r.2 = wanted.2) := by
  intro r wanted
  rcases h.handle_retrieval disk hfile with hr | hr | hr | hr
  · left
    rw [show r = _ from hr]
    exact ⟨rfl, rfl⟩
  · left
    rw [show r = _ from hr]
    exact ⟨rfl, rfl⟩
  · right
    rw [show r = _ from hr]
    exact ⟨rfl, rfl, rfl⟩
  · right
    rw [show r = _ from hr]
    exact ⟨Response.delivered_compiled _, Response.lacksOutput_compiled _, rfl⟩

theorem handle_delivers (h : Host σ H) (disk : Disk) {request : Request} {file : Path}
    (hfile : request.file? = some file) (hok : (h.handle disk request).1.delivered = true) :
    h.keyOf file ∈ (h.handle disk request).2.outputs := by
  rcases h.handle_answers disk hfile with ⟨hno, -⟩ | ⟨hanswer, -, hnext⟩
  · rw [hno] at hok
    cases hok
  · rw [hanswer] at hok
    rw [hnext]
    cases ha : (h.retrieve disk file).1 with
    | ok data => exact h.retrieve_delivers disk file ha
    | error e =>
      rw [ha] at hok
      cases hok

theorem handle_stored (h : Host σ H) (disk : Disk) {request : Request} {file : Path}
    (hfile : request.file? = some file) (hkey : h.keyOf file ∈ h.outputs) :
    (h.handle disk request).1.lacksOutput = false := by
  rcases h.handle_answers disk hfile with ⟨-, hno⟩ | ⟨-, hanswer, -⟩
  · exact hno
  · rw [hanswer]
    rcases h.retrieve_stored disk file hkey with ha | ⟨data, ha⟩
    · rw [ha]
      rfl
    · rw [ha]
      rfl

theorem calls_stored (h : Host σ H) (disk : Disk) {request : Request} {file : Path}
    (hfile : request.file? = some file) (hkey : h.keyOf file ∈ h.outputs) :
    h.calls disk request = [] :=
  (h.handle_effect disk request).calls_of_known hfile (h.known_of_mem hkey)

/-- Retries are bounded. The passes of a generation are those that were asked for and one for
each key whose retrieval started a pass, and no key starts a second one. A key with an output
starts none, outputs stay until the next reset, and once an output was handed over, each later
retrieval of its key finds it without a pass, unless the generation has failed. -/
theorem retries_bounded (service : Service σ H) (state : σ) (config : ResolvedConfig)
    (turns : List (Turn σ)) :
    let start := ofService service state config
    let h := start.after turns
    let past := start.deeds [] turns
    h.passes = past.countP (·.request.isCompile) + (starters start.keyOf past).length ∧
    (starters start.keyOf past).Nodup ∧
    (∀ disk request file, request.file? = some file → start.keyOf file ∈ h.outputs →
      (h.calls disk request).started = false) ∧
    (∀ later, (∀ t ∈ later, t.isReset = false) →
      ∀ key ∈ h.outputs, key ∈ (h.after later).outputs) ∧
    (∀ disk request file later disk' request' file', request.file? = some file →
      (h.handle disk request).1.delivered = true → (∀ t ∈ later, t.isReset = false) →
      request'.file? = some file' → start.keyOf file' = start.keyOf file →
      let k := (h.handle disk request).2.after later
      (k.handle disk' request').1.lacksOutput = false ∧
        (k.calls disk' request').started = false) := by
  intro start h past
  have ha := accounted_after service state config turns
  refine ⟨ha.passes, ha.nodup, ?_, ?_, ?_⟩
  · intro disk request file hfile hkey
    rw [← ha.keyOf_eq] at hkey
    rw [h.calls_stored disk hfile hkey]
    rfl
  · intro later hlater key hkey
    exact h.mem_outputs_after hkey later hlater
  · intro disk request file later disk' request' file' hfile hok hlater hfile' hsame k
    have hk : k.keyOf = h.keyOf :=
      (keyOf_after _ later).trans (h.handle_effect disk request).keyOf
    have hkey : k.keyOf file' ∈ k.outputs := by
      rw [hk, ha.keyOf_eq, hsame, ← ha.keyOf_eq]
      exact mem_outputs_after _ (h.handle_delivers disk hfile hok) later hlater
    rw [k.calls_stored disk' hfile' hkey]
    exact ⟨k.handle_stored disk' hfile' hkey, rfl⟩

end Host

end Rebuild
