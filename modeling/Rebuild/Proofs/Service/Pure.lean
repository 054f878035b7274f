import Rebuild.Service.Sketch

/-!
# Pure services

A service is pure if its state has no part in its answers. Parsing goes by the
name and the text, a build by the roots, the configuration and the files it is
given, and the programs it builds say the same whenever they are asked.
-/

set_option autoImplicit false

namespace Rebuild

variable {σ H : Type}

/-- Programs that say the same in all states of the service. -/
structure Program.Alike (p q : Program σ) : Prop where
  syntaxDiagnostics : ∀ s t, (p.syntaxDiagnostics s).1 = (q.syntaxDiagnostics t).1
  globalDiagnostics : ∀ s t, (p.globalDiagnostics s).1 = (q.globalDiagnostics t).1
  semanticDiagnostics : ∀ s t, (p.semanticDiagnostics s).1 = (q.semanticDiagnostics t).1
  emit : ∀ s t, (p.emit s).1 = (q.emit t).1

inductive BuiltAlike : Except InternalError (Program σ) → Except InternalError (Program σ) → Prop
  | failed (e : InternalError) : BuiltAlike (.error e) (.error e)
  | built {p q : Program σ} (h : p.Alike q) : BuiltAlike (.ok p) (.ok q)

/-- Builds that ask for the same files as long as they are given the same answers. -/
inductive Session.Alike : Session σ H → Session σ H → Prop
  | finish {r r' : Except InternalError (Program σ)} (s t : σ) (h : BuiltAlike r r') :
    Alike (.finish r s) (.finish r' t)
  | read (path : Path) (s t : σ) {next next' : Option H → σ → Session σ H}
    (h : ∀ answer s t, Alike (next answer s) (next' answer t)) :
    Alike (.read path s next) (.read path t next')

def Parser.Pure (parse : Parser σ H) : Prop :=
  ∀ name contents s t, (parse name contents s).1 = (parse name contents t).1

structure Service.Pure (service : Service σ H) : Prop where
  parse : Parser.Pure service.parse
  build : ∀ roots config s t, (service.build roots config s).Alike (service.build roots config t)

namespace Program.Alike

variable {p q : Program σ}

theorem allSemantic (h : p.Alike q) (s t : σ) : (p.allSemantic s).1 = (q.allSemantic t).1 := by
  simp only [Program.allSemantic, h.globalDiagnostics s t]
  split
  · exact h.semanticDiagnostics _ _
  · rfl

theorem consult (h : p.Alike q) (mayEmit : List Diagnostic → Bool) (s t : σ) :
    (p.consult mayEmit s).1 = (q.consult mayEmit t).1 := by
  have hsemantic := h.allSemantic (p.syntaxDiagnostics s).2 (q.syntaxDiagnostics t).2
  simp only [Program.consult, h.syntaxDiagnostics s t]
  split
  · rfl
  · rw [hsemantic]
    split
    · exact congrArg (Verdict.emitted _) (h.emit _ _)
    · rfl

end Program.Alike

namespace Sketch

theorem toProgram_alike (p : SketchProgram) : p.toProgram.Alike p.toProgram where
  syntaxDiagnostics _ _ := rfl
  globalDiagnostics _ _ := rfl
  semanticDiagnostics _ _ := rfl
  emit _ _ := rfl

theorem gather_alike (config : ResolvedConfig) (steps : Nat) (queue : List CanonicalPath)
    (seen : Std.TreeSet CanonicalPath) (backward : List (CanonicalPath × SketchFile))
    (s t : ParseLog) :
    (gather config steps queue seen backward s).Alike
      (gather config steps queue seen backward t) := by
  induction steps generalizing queue seen backward s t with
  | zero =>
    cases queue with
    | nil => exact .finish s t (.built (toProgram_alike _))
    | cons path queue => exact .finish s t (.failed _)
  | succ steps ih =>
    cases queue with
    | nil => exact .finish s t (.built (toProgram_alike _))
    | cons path queue =>
      rw [gather, gather]
      split
      · exact ih queue seen backward s t
      · apply Session.Alike.read
        intro answer s t
        cases answer with
        | none => exact ih queue _ backward s t
        | some f => exact ih _ _ _ s t

theorem service_pure : service.Pure where
  parse _ _ _ _ := rfl
  build roots config s t := gather_alike config maxSteps roots ∅ [] s t

end Sketch

end Rebuild
