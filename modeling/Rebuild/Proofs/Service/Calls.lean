import Rebuild.Service.Basic

/-!
# Calls of a pass

A service that writes down what a pass asks of it, and what it answers. Apart
from that it does what the service does. The calls of a pass begin with the
build and go on as far as the findings let them, and they tell the verdict.
-/

set_option autoImplicit false

namespace Rebuild

variable {σ H : Type}

inductive ServiceCall where
  | build (built : Bool)
  | syntaxErrors (found : List Diagnostic)
  | globalErrors (found : List Diagnostic)
  | fileErrors (found : List Diagnostic)
  | emit (emission : Emission)

/-- The calls of one pass in order. Without a pass there are none. -/
abbrev Calls := List ServiceCall

namespace Calls

def started (c : Calls) : Bool := c.any fun | .build _ => true | _ => false

def built (c : Calls) : Bool := c.any fun | .build b => b | _ => false

def syntaxErrors? (c : Calls) : Option (List Diagnostic) :=
  c.findSome? fun | .syntaxErrors found => some found | _ => none

/-- The semantic diagnostics, if they were asked for: the global ones if there are any, and
else those of the files. -/
def semanticErrors? (c : Calls) : Option (List Diagnostic) :=
  match c.findSome? fun | .globalErrors found => some found | _ => none with
  | some [] => c.findSome? fun | .fileErrors found => some found | _ => none
  | found => found

def emission? (c : Calls) : Option Emission :=
  c.findSome? fun | .emit emission => some emission | _ => none

/-- The findings that end all emission for a generation. A strict host takes any for fatal. -/
def Fatal (strict : Bool) (c : Calls) : Prop :=
  (∃ found, c.syntaxErrors? = some found ∧ found ≠ []) ∨
    strict = true ∧
      ((∃ found, c.semanticErrors? = some found ∧ found ≠ []) ∨
        ∃ emission, c.emission? = some emission ∧ emission.diagnostics ≠ [])

end Calls

def noted {α : Type} (call : α → ServiceCall) (step : σ → α × σ) :
    σ × Calls → α × (σ × Calls) :=
  fun s =>
    let (answer, state) := step s.1
    (answer, (state, s.2 ++ [call answer]))

def Program.noting (p : Program σ) : Program (σ × Calls) where
  syntaxDiagnostics := noted .syntaxErrors p.syntaxDiagnostics
  globalDiagnostics := noted .globalErrors p.globalDiagnostics
  semanticDiagnostics := noted .fileErrors p.semanticDiagnostics
  emit := noted .emit p.emit

def Session.noting : Session σ H → Calls → Session (σ × Calls) H
  | .finish result state, calls =>
    .finish (result.map Program.noting) (state, calls ++ [.build result.isOk])
  | .read path state next, calls =>
    .read path (state, calls) (fun answer s => (next answer s.1).noting s.2)

def Parser.aside (parse : Parser σ H) : Parser (σ × Calls) H :=
  fun name contents s =>
    let (parsed, state) := parse name contents s.1
    (parsed, (state, s.2))

/-- The service that also writes down the calls of its passes. -/
def Service.noting (service : Service σ H) : Service (σ × Calls) H where
  parse := service.parse.aside
  build roots config s := (service.build roots config s.1).noting s.2

inductive Selected : List Diagnostic → Calls → Prop
  | global {found : List Diagnostic} (hfound : found ≠ []) :
    Selected found [.globalErrors found]
  | ofFiles (found : List Diagnostic) : Selected found [.globalErrors [], .fileErrors found]

/-- A verdict, and the calls that lead to it. -/
inductive Verdict.Reached (mayEmit : List Diagnostic → Bool) : Verdict → Calls → Prop
  | failed (e : InternalError) : Reached mayEmit (.failed e) [.build false]
  | malformed {found : List Diagnostic} (hfound : found ≠ []) :
    Reached mayEmit (.malformed found) [.build true, .syntaxErrors found]
  | checked {found : List Diagnostic} {asked : Calls} (hasked : Selected found asked)
    (hno : mayEmit found = false) :
    Reached mayEmit (.checked found) (.build true :: .syntaxErrors [] :: asked)
  | emitted {found : List Diagnostic} {asked : Calls} (hasked : Selected found asked)
    (hyes : mayEmit found = true) (emission : Emission) :
    Reached mayEmit (.emitted found emission)
      (.build true :: .syntaxErrors [] :: (asked ++ [.emit emission]))

namespace Selected

variable {found : List Diagnostic} {asked : Calls}

theorem semanticErrors? (h : Selected found asked) (rest : Calls) :
    Calls.semanticErrors? (.build true :: .syntaxErrors [] :: (asked ++ rest)) = some found := by
  cases h with
  | global hfound =>
    obtain ⟨d, ds, rfl⟩ := List.exists_cons_of_ne_nil hfound
    rfl
  | ofFiles => rfl

theorem emission? (h : Selected found asked) (rest : Calls) :
    Calls.emission? (.build true :: .syntaxErrors [] :: (asked ++ rest)) = rest.emission? := by
  cases h with
  | global _ => rfl
  | ofFiles => rfl

theorem semanticErrors?_last (h : Selected found asked) :
    Calls.semanticErrors? (.build true :: .syntaxErrors [] :: asked) = some found := by
  have hsome := h.semanticErrors? []
  rwa [List.append_nil] at hsome

theorem emission?_last (h : Selected found asked) :
    Calls.emission? (.build true :: .syntaxErrors [] :: asked) = none := by
  have hnone := h.emission? []
  rwa [List.append_nil] at hnone

end Selected

namespace Verdict

def emission? : Verdict → Option Emission
  | .emitted _ emission => some emission
  | _ => none

def writes : Verdict → List (Path × ByteArray)
  | .emitted _ emission => emission.writes
  | _ => []

theorem writes_of_silent {v : Verdict} (h : v.emission? = none) : v.writes = [] := by
  cases v with
  | emitted found emission => cases h
  | _ => rfl

def reported : Verdict → List Diagnostic
  | .failed _ => []
  | .malformed found => found
  | .checked found => found
  | .emitted found emission => found ++ emission.diagnostics

def fatal (strict : Bool) : Verdict → Bool
  | .failed _ => false
  | .malformed _ => true
  | .checked found => strict && !found.isEmpty
  | .emitted _ emission => strict && !emission.diagnostics.isEmpty

namespace Reached

variable {mayEmit : List Diagnostic → Bool} {v : Verdict} {c : Calls}

theorem started (h : v.Reached mayEmit c) : c.started = true := by
  cases h with
  | failed _ => rfl
  | malformed _ => rfl
  | checked _ _ => rfl
  | emitted _ _ _ => rfl

theorem emission?_eq (h : v.Reached mayEmit c) : c.emission? = v.emission? := by
  cases h with
  | failed _ => rfl
  | malformed _ => rfl
  | checked hasked _ => exact hasked.emission?_last
  | emitted hasked _ emission => exact hasked.emission? [.emit emission]

theorem asks (h : v.Reached mayEmit c) :
    (c.built = true → c.syntaxErrors?.isSome = true) ∧
      (c.syntaxErrors? = some [] → c.semanticErrors?.isSome = true) := by
  cases h with
  | failed e => simp [Calls.built, Calls.syntaxErrors?]
  | malformed hfound => simp [Calls.syntaxErrors?, hfound]
  | checked hasked hno =>
    simp [Calls.syntaxErrors?, hasked.semanticErrors?_last]
  | emitted hasked hyes emission =>
    have hsemantic := hasked.semanticErrors? [.emit emission]
    simp [Calls.syntaxErrors?, hsemantic]

theorem emits_iff (h : v.Reached mayEmit c) :
    c.emission?.isSome = true ↔ c.built = true ∧ c.syntaxErrors? = some [] ∧
      ∃ found, c.semanticErrors? = some found ∧ mayEmit found = true := by
  rw [h.emission?_eq]
  cases h with
  | failed e => simp [emission?, Calls.built]
  | malformed hfound => simp [emission?, Calls.syntaxErrors?, hfound]
  | checked hasked hno =>
    simp [emission?, hasked.semanticErrors?_last, hno]
  | emitted hasked hyes emission =>
    have hsemantic := hasked.semanticErrors? [.emit emission]
    simp [emission?, Calls.built, Calls.syntaxErrors?, hsemantic, hyes]

theorem fatal_iff (h : v.Reached mayEmit c) (strict : Bool)
    (hstrict : strict = true → ∀ found, mayEmit found = true → found = []) :
    v.fatal strict = true ↔ c.built = true ∧ c.Fatal strict := by
  have hemission := h.emission?_eq
  rw [Calls.Fatal, hemission]
  cases h with
  | failed e => simp [fatal, Calls.built]
  | malformed hfound => simp [fatal, Calls.built, Calls.syntaxErrors?, hfound]
  | checked hasked hno =>
    simp [fatal, emission?, Calls.built, Calls.syntaxErrors?, hasked.semanticErrors?_last]
  | emitted hasked hyes emission =>
    have hsemantic := hasked.semanticErrors? [.emit emission]
    simp only [fatal, emission?, hsemantic, Calls.built, Calls.syntaxErrors?,
      List.findSome?_cons, List.any_cons, Bool.true_or, true_and, Option.some.injEq,
      exists_eq_left', Bool.and_eq_true, Bool.not_eq_true', List.isEmpty_eq_false_iff]
    constructor
    · rintro ⟨hs, hd⟩
      exact Or.inr ⟨hs, Or.inr hd⟩
    · rintro (herrors | ⟨hs, hfound | hd⟩)
      · exact absurd rfl herrors
      · exact absurd (hstrict hs _ hyes) hfound
      · exact ⟨hs, hd⟩

end Reached

end Verdict

namespace Program

theorem allSemantic_global (p : Program σ) (s : σ) (h : (p.globalDiagnostics s).1 ≠ []) :
    p.allSemantic s = p.globalDiagnostics s := by
  rw [allSemantic]
  exact if_neg (by rwa [List.isEmpty_iff])

theorem allSemantic_files (p : Program σ) (s : σ) (h : (p.globalDiagnostics s).1 = []) :
    p.allSemantic s = p.semanticDiagnostics (p.globalDiagnostics s).2 := by
  rw [allSemantic]
  exact if_pos (by rwa [List.isEmpty_iff])

theorem allSemantic_noting (p : Program σ) (s : σ) :
    ∃ asked, Selected (p.allSemantic s).1 asked ∧ ∀ calls,
      p.noting.allSemantic (s, calls) =
        ((p.allSemantic s).1, ((p.allSemantic s).2, calls ++ asked)) := by
  by_cases h : (p.globalDiagnostics s).1 = []
  · rw [p.allSemantic_files s h]
    refine ⟨_, .ofFiles _, fun calls => ?_⟩
    rw [p.noting.allSemantic_files (s, calls) h]
    simp only [noting, noted, h, List.append_assoc, List.cons_append, List.nil_append]
  · rw [p.allSemantic_global s h]
    refine ⟨_, .global h, fun calls => ?_⟩
    rw [p.noting.allSemantic_global (s, calls) h]
    rfl

theorem consult_malformed (p : Program σ) (mayEmit : List Diagnostic → Bool) (s : σ)
    (h : (p.syntaxDiagnostics s).1 ≠ []) :
    p.consult mayEmit s = (.malformed (p.syntaxDiagnostics s).1, (p.syntaxDiagnostics s).2) := by
  rw [consult]
  exact if_pos (by simpa using h)

theorem consult_wellFormed (p : Program σ) (mayEmit : List Diagnostic → Bool) (s : σ)
    (h : (p.syntaxDiagnostics s).1 = []) :
    p.consult mayEmit s =
      let r := p.allSemantic (p.syntaxDiagnostics s).2
      if mayEmit r.1 then (.emitted r.1 (p.emit r.2).1, (p.emit r.2).2) else (.checked r.1, r.2) := by
  rw [consult]
  exact if_neg (by simpa using h)

/-- Writing down the calls changes nothing else, and they lead to the verdict. -/
theorem consult_noting (p : Program σ) (mayEmit : List Diagnostic → Bool) (s : σ) :
    ∃ asked, (p.consult mayEmit s).1.Reached mayEmit (.build true :: asked) ∧ ∀ calls,
      p.noting.consult mayEmit (s, calls) =
        ((p.consult mayEmit s).1, ((p.consult mayEmit s).2, calls ++ asked)) := by
  by_cases h : (p.syntaxDiagnostics s).1 = []
  · obtain ⟨asked, hasked, hsemantic⟩ := p.allSemantic_noting (p.syntaxDiagnostics s).2
    have hstart (calls : Calls) : p.noting.allSemantic (p.noting.syntaxDiagnostics (s, calls)).2 =
        ((p.allSemantic (p.syntaxDiagnostics s).2).1,
          (p.allSemantic (p.syntaxDiagnostics s).2).2, calls ++ .syntaxErrors [] :: asked) := by
      have hs := hsemantic (calls ++ [.syntaxErrors []])
      rw [List.append_assoc] at hs
      rw [← h] at hs ⊢
      exact hs
    rw [p.consult_wellFormed mayEmit s h]
    dsimp only
    cases hmay : mayEmit (p.allSemantic (p.syntaxDiagnostics s).2).1 with
    | false =>
      refine ⟨_, .checked hasked hmay, fun calls => ?_⟩
      rw [p.noting.consult_wellFormed mayEmit (s, calls) h, hstart]
      dsimp only
      rw [hmay]
      rfl
    | true =>
      refine ⟨_, .emitted hasked hmay _, fun calls => ?_⟩
      rw [p.noting.consult_wellFormed mayEmit (s, calls) h, hstart]
      dsimp only
      rw [hmay]
      simp only [noting, noted, List.append_assoc, List.cons_append]
      rfl
  · rw [p.consult_malformed mayEmit s h]
    refine ⟨_, .malformed h, fun calls => ?_⟩
    rw [p.noting.consult_malformed mayEmit (s, calls) h]
    rfl

end Program

end Rebuild
