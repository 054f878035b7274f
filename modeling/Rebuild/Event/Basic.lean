import Rebuild.Cache.Record
import Rebuild.Diagnostic.CompileError

/-!
# Events

The host tells its listeners of each file it sees and of each diagnostic. A
log keeps what it is told until it is drained, and counts the errors for
good.
-/

set_option autoImplicit false

namespace Rebuild

inductive Event where
  | file (observed : Observation)
  | error (e : CompileError)
  deriving DecidableEq

namespace Event

def observation? : Event → Option Observation
  | .file o => some o
  | .error _ => none

def error? : Event → Option CompileError
  | .file _ => none
  | .error e => some e

end Event

structure EventLog where
  events : List Event
  errorCount : Nat
  deriving DecidableEq

namespace EventLog

def empty : EventLog := ⟨[], 0⟩

def record (log : EventLog) (e : Event) : EventLog :=
  ⟨log.events ++ [e], log.errorCount + (if e.error?.isSome then 1 else 0)⟩

def hasErrors (log : EventLog) : Bool := 0 < log.errorCount

def files (log : EventLog) : List Observation := log.events.filterMap Event.observation?

def errors (log : EventLog) : List CompileError := log.events.filterMap Event.error?

/-- Hands over all events and keeps the count. -/
def takeAll (log : EventLog) : List Event × EventLog := (log.events, { log with events := [] })

end EventLog

/-- Who is told of events: a log, a mailbox that is emptied by its reader, a history
of everything, or a mailbox whose reader is gone. -/
inductive Listener where
  | log (log : EventLog)
  | mailbox (pending : List Event)
  | history (events : List Event)
  | closed
  deriving DecidableEq

namespace Listener

def receive (e : Event) : Listener → Listener
  | .log kept => .log (kept.record e)
  | .mailbox pending => .mailbox (pending ++ [e])
  | .history events => .history (events ++ [e])
  | .closed => .closed

def collect : Listener → List Event × Listener
  | .log kept => (kept.events, .log kept)
  | .mailbox pending => (pending, .mailbox [])
  | .history events => (events, .history events)
  | .closed => ([], .closed)

end Listener

end Rebuild
