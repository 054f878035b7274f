import Rebuild.Event.Basic

/-!
# Logs and their readers

A log is written to, read and drained in any order. The batches that were
drained and what is still there make up all that was recorded. The count of
errors is that of the whole history, since draining leaves it alone.
-/

set_option autoImplicit false

namespace Rebuild

inductive LogCall where
  | record (e : Event)
  | events
  | files
  | errors
  | hasErrors
  | errorCount
  | takeAll

inductive LogAnswer where
  | recorded
  | events (es : List Event)
  | files (os : List Observation)
  | errors (es : List CompileError)
  | hasErrors (b : Bool)
  | errorCount (n : Nat)
  | batch (es : List Event)

def LogCall.recorded : LogCall → List Event
  | .record e => [e]
  | _ => []

def LogAnswer.drained : LogAnswer → List Event
  | .batch es => es
  | _ => []

namespace EventLog

def call (log : EventLog) : LogCall → LogAnswer × EventLog
  | .record e => (.recorded, log.record e)
  | .events => (.events log.events, log)
  | .files => (.files log.files, log)
  | .errors => (.errors log.errors, log)
  | .hasErrors => (.hasErrors log.hasErrors, log)
  | .errorCount => (.errorCount log.errorCount, log)
  | .takeAll => (.batch log.takeAll.1, log.takeAll.2)

def run (log : EventLog) : List LogCall → List LogAnswer × EventLog
  | [] => ([], log)
  | c :: calls =>
    let (answer, log) := log.call c
    let (answers, log) := log.run calls
    (answer :: answers, log)

theorem run_cons (log : EventLog) (c : LogCall) (calls : List LogCall) :
    log.run (c :: calls) =
      ((log.call c).1 :: ((log.call c).2.run calls).1, ((log.call c).2.run calls).2) := rfl

/-! ## What is kept -/

/-- What a call hands over and what it leaves are what was there and what it records. -/
theorem call_events (log : EventLog) (c : LogCall) :
    (log.call c).1.drained ++ (log.call c).2.events = log.events ++ c.recorded := by
  cases c with
  | record e => rfl
  | takeAll => rfl
  | _ => exact (List.append_nil _).symm

theorem run_events (log : EventLog) (calls : List LogCall) :
    (log.run calls).1.flatMap LogAnswer.drained ++ (log.run calls).2.events =
      log.events ++ calls.flatMap LogCall.recorded := by
  induction calls generalizing log with
  | nil => exact (List.append_nil _).symm
  | cons c calls ih =>
    rw [run_cons, List.flatMap_cons, List.flatMap_cons, List.append_assoc, ih,
      ← List.append_assoc, call_events, List.append_assoc]

theorem call_errorCount (log : EventLog) (c : LogCall) :
    (log.call c).2.errorCount = log.errorCount + c.recorded.countP (·.error?.isSome) := by
  cases c with
  | record e => exact congrArg (log.errorCount + ·) (List.countP_singleton ..).symm
  | _ => rfl

theorem run_errorCount (log : EventLog) (calls : List LogCall) :
    (log.run calls).2.errorCount =
      log.errorCount + (calls.flatMap LogCall.recorded).countP (·.error?.isSome) := by
  induction calls generalizing log with
  | nil => rfl
  | cons c calls ih =>
    rw [run_cons, List.flatMap_cons, List.countP_append, ih, call_errorCount, Nat.add_assoc]

/-! ## What is read -/

theorem map_filterMap_payload {α : Type} {payload : Event → Option α} {event : α → Event}
    (h : ∀ e a, payload e = some a → event a = e) (es : List Event) :
    (es.filterMap payload).map event = es.filter (fun e => (payload e).isSome) := by
  induction es with
  | nil => rfl
  | cons e es ih =>
    cases hpayload : payload e with
    | none =>
      rw [List.filterMap_cons_none hpayload, List.filter_cons_of_neg (by simp [hpayload]), ih]
    | some a =>
      rw [List.filterMap_cons_some hpayload, List.filter_cons_of_pos (by simp [hpayload]),
        List.map_cons, h e a hpayload, ih]

theorem files_eq (log : EventLog) :
    log.files.map Event.file = log.events.filter (·.observation?.isSome) := by
  refine map_filterMap_payload (fun e o ho => ?_) log.events
  cases e <;> cases ho
  rfl

theorem errors_eq (log : EventLog) :
    log.errors.map Event.error = log.events.filter (·.error?.isSome) := by
  refine map_filterMap_payload (fun e error he => ?_) log.events
  cases e <;> cases he
  rfl

theorem errors_length (log : EventLog) :
    log.errors.length = log.events.countP (·.error?.isSome) := by
  rw [List.countP_eq_length_filter, ← errors_eq, List.length_map]

theorem hasErrors_iff (log : EventLog) : log.hasErrors = true ↔ 0 < log.errorCount :=
  decide_eq_true_iff

/-- Nothing is lost and nothing comes twice, whatever calls are made of a new log. The drained
batches and the pending events are the events that were recorded, in order. The files and the
errors are those of the pending events. The errors are counted over the whole history, drained or
pending, and the flag is up once there was one. -/
theorem run_history (calls : List LogCall) :
    let log := (empty.run calls).2
    let drained := (empty.run calls).1.flatMap LogAnswer.drained
    let history := calls.flatMap LogCall.recorded
    drained ++ log.events = history ∧
    log.files.map Event.file = log.events.filter (·.observation?.isSome) ∧
    log.errors.map Event.error = log.events.filter (·.error?.isSome) ∧
    log.errorCount = history.countP (·.error?.isSome) ∧
    log.errorCount = drained.countP (·.error?.isSome) + log.errors.length ∧
    (log.hasErrors = true ↔ ∃ e, Event.error e ∈ history) := by
  intro log drained history
  have hevents : drained ++ log.events = history := empty.run_events calls
  have hcount : log.errorCount = history.countP (·.error?.isSome) :=
    (empty.run_errorCount calls).trans (Nat.zero_add _)
  refine ⟨hevents, log.files_eq, log.errors_eq, hcount, ?_, ?_⟩
  · rw [hcount, ← hevents, List.countP_append, errors_length]
  · rw [hasErrors_iff, hcount, List.countP_pos_iff]
    constructor
    · rintro ⟨e, he, herror⟩
      cases e with
      | file o => cases herror
      | error e => exact ⟨e, he⟩
    · rintro ⟨e, he⟩
      exact ⟨_, he, rfl⟩

end EventLog

end Rebuild
