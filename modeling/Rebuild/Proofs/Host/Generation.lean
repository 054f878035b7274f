import Rebuild.Proofs.Host.Calls

/-!
# Generations

A run is a list of turns. In a turn the host handles a request, or something
changes around it. The deeds of a generation are its requests, the latest
first, with the calls that they have led to. A reset starts a new list.
-/

set_option autoImplicit false

namespace Rebuild

variable {σ H : Type}

inductive Turn (σ : Type) where
  | handle (disk : Disk) (request : Request)
  | around (state : σ) (listeners : List Listener) (rewriter : SourceMapRewriter)

def Turn.isReset : Turn σ → Bool
  | .handle _ request => request.isReset
  | .around _ _ _ => false

theorem Turn.absurd_reset {turns : List (Turn σ)} (hturns : ∀ t ∈ turns, t.isReset = false)
    {P : Prop} (t : Turn σ) (ht : t ∈ turns) (hreset : t.isReset = true) : P := by
  rw [hturns t ht] at hreset
  cases hreset

structure Deed where
  request : Request
  calls : Calls

namespace Host

def turn (h : Host σ H) : Turn σ → Host σ H
  | .handle disk request => (h.handle disk request).2
  | .around state listeners rewriter => h.around state listeners rewriter

def after (h : Host σ H) : List (Turn σ) → Host σ H
  | [] => h
  | t :: turns => (h.turn t).after turns

def extend (h : Host σ H) (past : List Deed) : Turn σ → List Deed
  | .handle disk request =>
    if request.isReset then [] else ⟨request, h.calls disk request⟩ :: past
  | .around _ _ _ => past

/-- The deeds of the generation that a run ends in, with those that came before the run. -/
def deeds (h : Host σ H) (past : List Deed) : List (Turn σ) → List Deed
  | [] => past
  | t :: turns => (h.turn t).deeds (h.extend past t) turns

theorem handle_reset (h : Host σ H) (disk : Disk) {request : Request}
    (hreset : request.isReset = true) : (h.handle disk request).2 = h.reset := by
  cases request with
  | reset => rfl
  | _ => cases hreset

/-- What changes around a host keep, and all effects of requests, holds after every run. A
reset has to keep it only if there is one. -/
theorem deeds_induction {I : Host σ H → List Deed → Prop} {h : Host σ H} (past : List Deed)
    (hstart : I h past) (turns : List (Turn σ))
    (haround : ∀ h past state listeners rewriter, I h past →
      I (h.around state listeners rewriter) past)
    (heffect : ∀ h past disk request calls next, I h past → request.isReset = false →
      h.Effect disk request calls next → I next (⟨request, calls⟩ :: past))
    (hreset : ∀ t ∈ turns, t.isReset = true → ∀ h past, I h past → I h.reset []) :
    I (h.after turns) (h.deeds past turns) := by
  induction turns generalizing h past with
  | nil => exact hstart
  | cons t turns ih =>
    apply ih _ _ (fun t ht => hreset t (List.mem_cons_of_mem _ ht))
    cases t with
    | around state listeners rewriter => exact haround h past _ _ _ hstart
    | handle disk request =>
      rw [turn, extend]
      cases hr : request.isReset with
      | false =>
        exact heffect h past disk request _ _ hstart hr (h.handle_effect disk request)
      | true =>
        rw [h.handle_reset disk hr]
        exact hreset _ (List.mem_cons_self ..) hr h past hstart

theorem Reachable.after {h : Host σ H} (hr : h.Reachable) (turns : List (Turn σ)) :
    (h.after turns).Reachable := by
  induction turns generalizing h with
  | nil => exact hr
  | cons t turns ih =>
    cases t with
    | handle disk request => exact ih (.handle disk request hr)
    | around state listeners rewriter => exact ih (.around state listeners rewriter hr)

theorem after_induction {P : Host σ H → Prop} {h : Host σ H} (hstart : P h)
    (turns : List (Turn σ))
    (haround : ∀ h state listeners rewriter, P h → P (h.around state listeners rewriter))
    (heffect : ∀ h disk request calls next, P h → request.isReset = false →
      h.Effect disk request calls next → P next)
    (hreset : ∀ t ∈ turns, t.isReset = true → ∀ h, P h → P h.reset) : P (h.after turns) :=
  deeds_induction (I := fun k _ => P k) [] hstart turns (fun h _ => haround h)
    (fun h _ => heffect h) (fun t ht hr h _ => hreset t ht hr h)

theorem service_after (h : Host σ H) (turns : List (Turn σ)) :
    (h.after turns).service = h.service := by
  induction turns generalizing h with
  | nil => rfl
  | cons t turns ih =>
    cases t with
    | handle disk request => exact (ih _).trans (h.handle_service disk request)
    | around state listeners rewriter => exact ih _

theorem config_after (h : Host σ H) (turns : List (Turn σ)) :
    (h.after turns).config = h.config :=
  after_induction (P := fun k => k.config = h.config) rfl turns (fun _ _ _ _ hk => hk)
    (fun _ _ _ _ _ hk _ he => he.config.trans hk) (fun _ _ _ _ hk => hk)

theorem keyOf_after (h : Host σ H) (turns : List (Turn σ)) : (h.after turns).keyOf = h.keyOf :=
  after_induction (P := fun k => k.keyOf = h.keyOf) rfl turns (fun _ _ _ _ hk => hk)
    (fun _ _ _ _ _ hk _ he => he.keyOf.trans hk) (fun _ _ _ _ hk => hk)

theorem after_append (h : Host σ H) (turns rest : List (Turn σ)) :
    h.after (turns ++ rest) = (h.after turns).after rest := by
  induction turns generalizing h with
  | nil => rfl
  | cons t turns ih => exact ih _

theorem reachable_iff (h : Host σ H) :
    h.Reachable ↔
      ∃ service state config turns, h = (ofService service state config).after turns := by
  constructor
  · intro hr
    induction hr with
    | start service state config => exact ⟨service, state, config, [], rfl⟩
    | handle disk request _ ih =>
      obtain ⟨service, state, config, turns, rfl⟩ := ih
      refine ⟨service, state, config, turns ++ [.handle disk request], ?_⟩
      rw [after_append]
      rfl
    | around s listeners rewriter _ ih =>
      obtain ⟨service, state, config, turns, rfl⟩ := ih
      refine ⟨service, state, config, turns ++ [.around s listeners rewriter], ?_⟩
      rw [after_append]
      rfl
  · rintro ⟨service, state, config, turns, rfl⟩
    exact (Reachable.start service state config).after turns

end Host

end Rebuild
