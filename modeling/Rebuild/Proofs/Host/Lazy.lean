import Rebuild.Proofs.Host.Standing
import Rebuild.Proofs.Service.Pure

/-!
# Passes on demand

A transform that finds no output starts the pass itself. Where all passes come
to the same, it makes no difference to the output whether this pass or an
earlier one has made it. It makes a difference if the pass fails: the transform
that has started it is answered with an error, and one that comes later with
an empty text.
-/

set_option autoImplicit false

namespace Rebuild

variable {σ H : Type}

theorem OutputPlace.writeAll_again (w : OutputPlace) (disk : Disk) (outputs : Outputs)
    (writes : List (Path × ByteArray)) (k : CanonicalPath) :
    (w.writeAll disk (w.writeAll disk outputs writes) writes)[k]? =
      (w.writeAll disk outputs writes)[k]? := by
  rw [writeAll_getElem?, writeAll_getElem?]
  split <;> rfl

theorem BuiltAlike.common {r r' built : Except InternalError (Program σ)} (h : BuiltAlike r built)
    (h' : BuiltAlike r' built) : BuiltAlike r r' := by
  cases h with
  | failed e =>
    cases h' with
    | failed _ => exact .failed e
  | built hp =>
    cases h' with
    | built hq =>
      exact .built
        { syntaxDiagnostics := fun s t =>
            (hp.syntaxDiagnostics s s).trans (hq.syntaxDiagnostics t s).symm
          globalDiagnostics := fun s t =>
            (hp.globalDiagnostics s s).trans (hq.globalDiagnostics t s).symm
          semanticDiagnostics := fun s t =>
            (hp.semanticDiagnostics s s).trans (hq.semanticDiagnostics t s).symm
          emit := fun s t => (hp.emit s s).trans (hq.emit t s).symm }

/-- A build that comes to programs which say the same, whatever it is answered. -/
inductive Session.ComesTo (built : Except InternalError (Program σ)) : Session σ H → Prop
  | finish {result : Except InternalError (Program σ)} (s : σ) (h : BuiltAlike result built) :
    ComesTo built (.finish result s)
  | read (path : Path) (s : σ) {next : Option H → σ → Session σ H}
    (h : ∀ answer s, ComesTo built (next answer s)) : ComesTo built (.read path s next)

theorem Scripted.conclusion_alike (script : Script) :
    BuiltAlike script.conclusion script.conclusion := by
  rw [Script.conclusion]
  split
  · exact .failed _
  · exact .built ⟨fun _ _ => rfl, fun _ _ => rfl, fun _ _ => rfl, fun _ _ => rfl⟩

theorem Scripted.readAll_comesTo (script : Script) (paths : List Path) (s : Stage) :
    (readAll script paths s).ComesTo script.conclusion := by
  induction paths generalizing s with
  | nil => exact .finish s (conclusion_alike script)
  | cons path paths ih => exact .read path s (fun _ _ => ih _)

namespace Host

/-! ## Marked keys -/

theorem serve_attempt (h : Host σ H) (key : CanonicalPath) (disk : Disk) (session : Session σ H) :
    (h.attempt key).serve disk session =
      ((h.serve disk session).1, (h.serve disk session).2.attempt key) := by
  induction session generalizing h with
  | finish result state =>
    rw [serve_finish, serve_finish]
    rfl
  | read path state next ih =>
    have hkeep (r : Option (Admission H) × FileCache H) :
        (h.attempt key).keep r = ((h.keep r).1, (h.keep r).2.attempt key) := by
      obtain ⟨admission, cache⟩ := r
      cases admission <;> rfl
    rw [serve_read, serve_read]
    dsimp only
    rw [hkeep]
    exact ih _ _ _

theorem compile_attempt (h : Host σ H) (key : CanonicalPath) (disk : Disk) :
    (h.attempt key).compile disk = ((h.compile disk).1, (h.compile disk).2.attempt key) := by
  have hpass : (h.attempt key).pass disk = ((h.pass disk).1, (h.pass disk).2.attempt key) := by
    have hserve := h.begin.serve_attempt key disk h.session
    rw [pass_eq, pass_eq, show (h.attempt key).session = h.session from rfl,
      show (h.attempt key).begin = h.begin.attempt key from rfl, hserve]
    generalize h.begin.serve disk h.session = r
    obtain ⟨answer, next⟩ := r
    cases answer <;> rfl
  have hconclude (k : Host σ H) (v : Verdict) : (k.attempt key).conclude disk v =
      ((k.conclude disk v).1, (k.conclude disk v).2.attempt key) := by
    refine Prod.ext ?_ ?_
    · cases v <;> rfl
    · dsimp only
      rw [conclude_eq, conclude_eq]
      rfl
  rw [compile, hpass]
  exact hconclude _ _

/-! ## Passes that agree -/

/-- As long as the flag is not raised, all passes over a disk come to the same. -/
def PassesAgree (h : Host σ H) (disk : Disk) : Prop :=
  ∀ n, let k := h.after (List.replicate n (.handle disk .compile))
    k.failed = false → (k.pass disk).1 = (h.pass disk).1

theorem PassesAgree.second {h : Host σ H} {disk : Disk} (ha : h.PassesAgree disk)
    (hf : (h.compile disk).2.failed = false) :
    ((h.compile disk).2.pass disk).1 = (h.pass disk).1 := ha 1 hf

theorem serve_comesTo (h : Host σ H) (disk : Disk) {built : Except InternalError (Program σ)}
    {session : Session σ H} (hs : session.ComesTo built) :
    BuiltAlike (h.serve disk session).1 built := by
  induction hs generalizing h with
  | finish s hbuilt =>
    rw [serve_finish]
    exact hbuilt
  | read path s _ ih =>
    rw [serve_read]
    exact ih _ _ _

theorem review_verdict {r r' : Except InternalError (Program σ) × Host σ H}
    (hbuilt : BuiltAlike r.1 r'.1) (hemit : r.2.mayEmit = r'.2.mayEmit) :
    (review r).1 = (review r').1 := by
  obtain ⟨built, next⟩ := r
  obtain ⟨built', next'⟩ := r'
  cases hbuilt with
  | failed e => rfl
  | built hpq =>
    rw [review, review]
    dsimp only at hemit ⊢
    rw [hemit]
    exact hpq.consult _ _ _

theorem passesAgree_of_comesTo {h : Host σ H} {built : Except InternalError (Program σ)}
    (hb : ∀ roots s, (h.service.build roots h.config s).ComesTo built) (hf : h.failed = false)
    (disk : Disk) : h.PassesAgree disk := by
  intro n k hk
  have hservice : k.service = h.service := service_after h _
  have hconfig : k.config = h.config := config_after h _
  have hsession : k.session.ComesTo built := by
    rw [session, hservice, hconfig]
    exact hb _ _
  have hreadk := k.begin.reads_serve disk k.session
  have hreadh := h.begin.reads_serve disk h.session
  rw [pass_eq, pass_eq]
  refine review_verdict ((serve_comesTo _ disk hsession).common (serve_comesTo _ disk (hb _ _)))
    (mayEmit_congr ?_ ?_)
  · exact hreadk.config.trans (hconfig.trans hreadh.config.symm)
  · exact hreadk.failed.trans ((hk.trans hf.symm).trans hreadh.failed.symm)

theorem passesAgree_scripted (script : Scripted.Script) (state : Scripted.Stage)
    (config : ResolvedConfig) (disk : Disk) :
    (ofService (Scripted.service [script]) state config).PassesAgree disk := by
  have hbuild (roots : List CanonicalPath) (s : Scripted.Stage) :
      ((Scripted.service [script]).build roots config s).ComesTo script.conclusion := by
    have hscript : Scripted.Script.atBuild [script] s.builds = script := by
      cases s.builds <;> rfl
    rw [Scripted.service]
    dsimp only
    rw [hscript]
    exact Scripted.readAll_comesTo script _ _
  exact passesAgree_of_comesTo hbuild rfl disk

/-! ## A pass made twice -/

variable {h k : Host σ H} {disk : Disk} {file : Path}

theorem compile_congr (hverdict : (k.pass disk).1 = (h.pass disk).1) :
    (k.compile disk).1 = (h.compile disk).1 := by
  have hanswer (a b : Host σ H) (v : Verdict) : (a.conclude disk v).1 = (b.conclude disk v).1 := by
    cases v <;> rfl
  rw [compile, compile]
  dsimp only
  rw [hverdict]
  exact hanswer _ _ _

theorem settle_congr {r r' : Except HostError PassSummary × Host σ H} (hanswer : r'.1 = r.1)
    (hf : r'.2.failed = r.2.failed) (hstored : r'.2.stored file = r.2.stored file) :
    (settle file r').1 = (settle file r).1 := by
  obtain ⟨answer, next⟩ := r
  obtain ⟨answer', next'⟩ := r'
  dsimp only at hanswer hf hstored
  rw [hanswer]
  cases answer with
  | error e => rfl
  | ok summary =>
    rw [settle, settle, hf, hstored]
    split <;> rfl

theorem settle_again (ha : h.PassesAgree disk) (hf : (h.compile disk).2.failed = false) :
    (settle file ((h.compile disk).2.compile disk)).1 = (settle file (h.compile disk)).1 := by
  have hverdict := ha.second hf
  have hquiet : ((h.compile disk).2.compile disk).2.failed = (h.compile disk).2.failed := by
    have hstrict : (h.compile disk).2.strict = h.strict := by rw [strict, strict, compile_config]
    have hfatal := h.compile_failed disk
    rw [hf] at hfatal
    rw [compile_failed _ disk, hverdict, hstrict, hf, (Bool.or_eq_false_iff.mp hfatal.symm).2]
    rfl
  have houtput : ((h.compile disk).2.compile disk).2.output? file =
      (h.compile disk).2.output? file := by
    have hkey : ((h.compile disk).2.compile disk).2.keyOf = (h.compile disk).2.keyOf :=
      Effect.compile.keyOf
    rw [output?, output?, ← keyOf, ← keyOf, hkey, compile_outputs _ disk, hverdict,
      compile_outputPlace, compile_outputs, OutputPlace.writeAll_again]
  exact settle_congr (compile_congr hverdict) hquiet
    (stored_congr (compile_config _ disk) (compile_currentDir _ disk) (compile_rewriter _ disk)
      houtput)

/-! ## Before and after the first pass -/

theorem retrieve_unknown (hf : h.failed = false) (hkey : h.known (h.keyOf file) = false) :
    (h.retrieve disk file).1 = (settle file (h.compile disk)).1 := by
  rw [h.retrieve_new disk file hf hkey, compile_attempt]
  generalize h.compile disk = r
  exact settle_congr (r := r) rfl rfl rfl

theorem retrieve_lazy (hfresh : h.Fresh) (disk : Disk) (file : Path) :
    (h.retrieve disk file).1 = (settle file (h.compile disk)).1 := by
  refine retrieve_unknown hfresh.failed ?_
  rw [known, hfresh.outputs, hfresh.attempted]
  rfl

theorem compile_ok (hverdict : ∀ e, (h.pass disk).1 ≠ .failed e) :
    ∃ summary, (h.compile disk).1 = .ok summary := by
  rw [compile]
  dsimp only
  generalize (h.pass disk).1 = verdict at hverdict
  cases verdict with
  | failed e => exact absurd rfl (hverdict e)
  | malformed found => exact ⟨_, rfl⟩
  | checked found => exact ⟨_, rfl⟩
  | emitted found emission => exact ⟨_, rfl⟩

theorem settle_eq (hverdict : ∀ e, (h.pass disk).1 ≠ .failed e) (file : Path) :
    (settle file (h.compile disk)).1 =
      if (h.compile disk).2.failed then .error (.compileFailed file)
      else (h.compile disk).2.stored file := by
  obtain ⟨summary, hok⟩ := compile_ok hverdict
  generalize h.compile disk = r at hok
  obtain ⟨answer, next⟩ := r
  dsimp only at hok
  rw [hok, settle]
  split <;> rfl

/-- If the first pass has left an output it is handed over, and if not, a second pass comes to the
same. -/
theorem retrieve_eager (hfresh : h.Fresh) (ha : h.PassesAgree disk)
    (hf : (h.compile disk).2.failed = false) (file : Path) :
    ((h.compile disk).2.retrieve disk file).1 = (settle file (h.compile disk)).1 := by
  cases hkey : (h.compile disk).2.known ((h.compile disk).2.keyOf file) with
  | true =>
    have hverdict (e : InternalError) : (h.pass disk).1 ≠ .failed e := by
      intro hv
      rw [known, compile_attempted, compile_outputs, hfresh.attempted, hfresh.outputs, hv] at hkey
      cases hkey
    rw [retrieve_known _ disk file hf hkey, settle_eq hverdict, if_neg (Bool.eq_false_iff.mp hf)]
  | false => exact (retrieve_unknown hf hkey).trans (settle_again ha hf)

theorem settle_failed (hfresh : h.Fresh) (hf : (h.compile disk).2.failed = true) (file : Path) :
    (settle file (h.compile disk)).1 = .error (.compileFailed file) := by
  have hverdict (e : InternalError) : (h.pass disk).1 ≠ .failed e := by
    intro hv
    rw [compile_failed, hfresh.failed, hv] at hf
    cases hf
  rw [settle_eq hverdict, if_pos hf]

/-! ## Transforms -/

theorem outright?_of_not_compiles (hc : h.compiles (FileKind.ofPath file) = false) :
    h.outright? file =
      some (if FileKind.ofPath file = .declaration then .empty else .passThrough) := by
  rw [outright?]
  split
  · rfl
  · rw [if_pos (by rw [hc]; rfl)]

theorem outright?_of_compiles (hc : h.compiles (FileKind.ofPath file) = true) :
    h.outright? file = if h.failed then some .empty else none := by
  rw [outright?]
  split
  · rename_i hkind
    rw [hkind] at hc
    cases hc
  · rw [if_neg (by rw [hc]; decide)]

theorem compiles_compile (h : Host σ H) (disk : Disk) (kind : FileKind) :
    (h.compile disk).2.compiles kind = h.compiles kind := by
  rw [compiles.eq_def, compiles.eq_def, compile_config]

theorem transform_compiled (hc : h.compiles (FileKind.ofPath file) = true)
    (hf : h.failed = false) (disk : Disk) :
    (h.transform disk file).1 = (h.retrieve disk file).1.map .compiled := by
  rw [transform_eq, outright?_of_compiles hc, hf]
  rfl

theorem transform_agrees (hfresh : h.Fresh) (ha : h.PassesAgree disk)
    (hquiet : h.compiles (FileKind.ofPath file) = false ∨ (h.compile disk).2.failed = false) :
    (h.transform disk file).1 = ((h.compile disk).2.transform disk file).1 := by
  have hsame := h.compiles_compile disk (FileKind.ofPath file)
  cases hc : h.compiles (FileKind.ofPath file) with
  | false =>
    rw [transform_eq, transform_eq, outright?_of_not_compiles hc,
      outright?_of_not_compiles (hsame.trans hc)]
  | true =>
    have hf : (h.compile disk).2.failed = false := by simpa [hc] using hquiet
    rw [transform_compiled hc hfresh.failed, transform_compiled (hsame.trans hc) hf,
      retrieve_lazy hfresh, retrieve_eager hfresh ha hf]

theorem transform_failing (hfresh : h.Fresh) (hc : h.compiles (FileKind.ofPath file) = true)
    (hf : (h.compile disk).2.failed = true) :
    (h.transform disk file).1 = .error (.compileFailed file) ∧
      ((h.compile disk).2.transform disk file).1 = .ok .empty := by
  have hsame := h.compiles_compile disk (FileKind.ofPath file)
  constructor
  · rw [transform_compiled hc hfresh.failed, retrieve_lazy hfresh, settle_failed hfresh hf]
    rfl
  · rw [transform_eq, outright?_of_compiles (hsame.trans hc), hf]
    rfl

/-- Whether the host has made its first pass, or makes it for this transform, has no part in the
answer if the file is not compiled or the pass leaves the flag down. If the pass raises it, the
transform that has started the pass is an error, and a later one comes to nothing. -/
theorem transform_lazy (h : Host σ H) (disk : Disk) (hr : h.Reachable) (hidle : h.phase = .idle)
    (ha : h.PassesAgree disk) (file : Path) :
    let compiled := (h.compile disk).2
    (h.compiles (FileKind.ofPath file) = false ∨ compiled.failed = false →
      (h.transform disk file).1 = (compiled.transform disk file).1) ∧
    (h.compiles (FileKind.ofPath file) = true → compiled.failed = true →
      (h.transform disk file).1 = .error (.compileFailed file) ∧
        (compiled.transform disk file).1 = .ok .empty) :=
  ⟨transform_agrees (hr.fresh hidle) ha, transform_failing (hr.fresh hidle)⟩

theorem transform_lazy_missing :
    let script : Scripted.Script :=
      { Scripted.Script.blank with emission := .ofWrites [(⟨"/a.js"⟩, "x".toUTF8)] [] false }
    let h := ofService (Scripted.service [script]) .empty (.default ⟨"/"⟩)
    h.Reachable ∧ h.phase = .idle ∧ h.PassesAgree .empty ∧
      (h.compile .empty).2.failed = false ∧
      (h.transform .empty ⟨"b.ts"⟩).1 = ((h.compile .empty).2.transform .empty ⟨"b.ts"⟩).1 := by
  intro script h
  have hr : h.Reachable := .start _ _ _
  have ha : h.PassesAgree .empty := passesAgree_scripted script .empty _ .empty
  have hf : (h.compile .empty).2.failed = false := by decide +kernel
  exact ⟨hr, rfl, ha, hf, (transform_lazy h .empty hr rfl ha ⟨"b.ts"⟩).1 (Or.inr hf)⟩

/-- A syntax error is an error of the transform that has come upon it, and of no later one. -/
theorem transform_lazy_malformed :
    let script : Scripted.Script :=
      { Scripted.Script.blank with
        syntaxDiagnostics := [.ofText .error 1005 "';' expected."] }
    let h := ofService (Scripted.service [script]) .empty (.default ⟨"/"⟩)
    h.Reachable ∧ h.phase = .idle ∧ h.PassesAgree .empty ∧
      (h.transform .empty ⟨"a.ts"⟩).1 = .error (.compileFailed ⟨"a.ts"⟩) ∧
      ((h.compile .empty).2.transform .empty ⟨"a.ts"⟩).1 = .ok .empty := by
  intro script h
  have hr : h.Reachable := .start _ _ _
  have hf : (h.compile .empty).2.failed = true := by decide +kernel
  have hc : h.compiles (FileKind.ofPath ⟨"a.ts"⟩) = true := by decide +kernel
  exact ⟨hr, rfl, passesAgree_scripted script .empty _ .empty,
    transform_failing (hr.fresh rfl) hc hf⟩

end Host

end Rebuild
