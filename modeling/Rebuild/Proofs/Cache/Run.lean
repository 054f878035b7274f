import Mathlib.Data.List.Induction
import Rebuild.Proofs.Cache.Admission

/-!
# Runs of a cache

A run is a list of requests, each with the disk it finds and the parser it
brings. What a run has asked of the parsers is noted by parsers that write
down what they are asked and what they answer. What the requests come to is a
history of events, in which the latest event stands first.
-/

set_option autoImplicit false

namespace Rebuild

variable {σ H : Type}

inductive CacheRequest (σ H : Type) where
  | addFile (disk : Disk) (file : Path) (isRoot : Bool) (parse : Parser σ H)
  | load (disk : Disk) (file : Path) (parse : Parser σ H)
  | addSource (file : Path) (contents : String) (isRoot : Bool) (parse : Parser σ H)
  | reset

/-- A text is admitted, with a root flag or without one, or a file cannot be read, or a generation
starts. -/
inductive CacheEvent where
  | admitted (path : CanonicalPath) (contents : String) (isRoot : Option Bool)
  | missed (path : CanonicalPath)
  | reset

def CacheEvent.ofRead (disk : Disk) (path : CanonicalPath) (isRoot : Option Bool) : CacheEvent :=
  match disk.readText path.toPath with
  | .ok contents => .admitted path contents isRoot
  | .error _ => .missed path

structure ParseCall (H : Type) where
  name : Path
  contents : String
  parsed : H

def Parser.noting (parse : Parser σ H) : Parser (σ × List (ParseCall H)) H :=
  fun name contents s =>
    let (parsed, state) := parse name contents s.1
    (parsed, (state, s.2 ++ [⟨name, contents, parsed⟩]))

def CacheEvent.calls (currentDir : CanonicalPath) :
    CacheEvent → Option (Admission H) → List (ParseCall H)
  | .admitted path contents _, some a =>
    if a.reuse = .fresh then [⟨path.relativeTo currentDir, contents, a.parsed⟩] else []
  | _, _ => []

namespace CacheRequest

def event (currentDir : CanonicalPath) : CacheRequest σ H → CacheEvent
  | .addFile disk file isRoot _ => .ofRead disk (currentDir.join file) (some isRoot)
  | .load disk file _ => .ofRead disk (currentDir.join file) none
  | .addSource file contents isRoot _ => .admitted (currentDir.join file) contents (some isRoot)
  | .reset => .reset

def noting : CacheRequest σ H → CacheRequest (σ × List (ParseCall H)) H
  | .addFile disk file isRoot parse => .addFile disk file isRoot parse.noting
  | .load disk file parse => .load disk file parse.noting
  | .addSource file contents isRoot parse => .addSource file contents isRoot parse.noting
  | .reset => .reset

end CacheRequest

/-- What requests come to that are seen from one directory, the latest first. -/
def history (currentDir : CanonicalPath) (requests : List (CacheRequest σ H)) : List CacheEvent :=
  (requests.map (CacheRequest.event currentDir)).reverse

theorem history_append (currentDir : CanonicalPath) (requests : List (CacheRequest σ H))
    (request : CacheRequest σ H) :
    history currentDir (requests ++ [request]) =
      request.event currentDir :: history currentDir requests := by
  simp [history]

def lastText (path : CanonicalPath) : List CacheEvent → Option String
  | [] => none
  | .admitted q contents _ :: past => if q = path then some contents else lastText path past
  | .missed _ :: past => lastText path past
  | .reset :: _ => none

def beforeReset : List CacheEvent → List CacheEvent
  | [] => []
  | .admitted _ _ _ :: past => beforeReset past
  | .missed _ :: past => beforeReset past
  | .reset :: past => past

namespace FileCache

def handle (c : FileCache H) (s : σ) :
    CacheRequest σ H → (Option (Admission H) × FileCache H) × σ
  | .addFile disk file isRoot parse => c.addFile disk file isRoot parse s
  | .load disk file parse => c.load disk file parse s
  | .addSource file contents isRoot parse =>
    let ((admission, c), s) := c.addSource file contents isRoot parse s
    ((some admission, c), s)
  | .reset => ((none, c.reset), s)

def advance (c : FileCache H) (s : σ) : List (CacheRequest σ H) → FileCache H × σ
  | [] => (c, s)
  | request :: rest =>
    let r := c.handle s request
    r.1.2.advance r.2 rest

def answers (c : FileCache H) (s : σ) : List (CacheRequest σ H) → List (Option (Admission H))
  | [] => []
  | request :: rest =>
    let r := c.handle s request
    r.1.1 :: r.1.2.answers r.2 rest

def calls (c : FileCache H) (s : σ) (requests : List (CacheRequest σ H)) : List (ParseCall H) :=
  (c.advance (s, []) (requests.map CacheRequest.noting)).2.2

theorem advance_append (c : FileCache H) (s : σ) (requests rest : List (CacheRequest σ H)) :
    c.advance s (requests ++ rest) =
      (c.advance s requests).1.advance (c.advance s requests).2 rest := by
  induction requests generalizing c s with
  | nil => rfl
  | cons request requests ih => exact ih _ _

theorem answers_append (c : FileCache H) (s : σ) (requests rest : List (CacheRequest σ H)) :
    c.answers s (requests ++ rest) =
      c.answers s requests ++ (c.advance s requests).1.answers (c.advance s requests).2 rest := by
  induction requests generalizing c s with
  | nil => rfl
  | cons request requests ih => exact congrArg (_ :: ·) (ih _ _)

theorem read_cases (c : FileCache H) (disk : Disk) (file : Path) (isRoot : Option Bool)
    (parse : Parser σ H) (s : σ) :
    (∃ contents, CacheEvent.ofRead disk (c.canonicalize file) isRoot =
        .admitted (c.canonicalize file) contents isRoot ∧
      c.read disk file isRoot parse s =
        ((some (c.accept (c.canonicalize file) contents isRoot parse s).1.1,
          (c.accept (c.canonicalize file) contents isRoot parse s).1.2),
          (c.accept (c.canonicalize file) contents isRoot parse s).2)) ∨
    (CacheEvent.ofRead disk (c.canonicalize file) isRoot = .missed (c.canonicalize file) ∧
      c.read disk file isRoot parse s = ((none, { c with stats := c.stats.countMiss }), s)) := by
  cases h : disk.readText (c.canonicalize file).toPath with
  | ok contents => exact Or.inl ⟨contents, by rw [CacheEvent.ofRead, h], by rw [read, h]⟩
  | error e => exact Or.inr ⟨by rw [CacheEvent.ofRead, h], by rw [read, h]⟩

theorem handle_cases (c : FileCache H) (s : σ) (request : CacheRequest σ H) :
    (∃ path contents isRoot parse,
      request.event c.currentDir = .admitted path contents isRoot ∧
      c.handle s request =
        ((some (c.accept path contents isRoot parse s).1.1,
          (c.accept path contents isRoot parse s).1.2),
          (c.accept path contents isRoot parse s).2)) ∨
    (∃ path, request.event c.currentDir = .missed path ∧
      c.handle s request = ((none, { c with stats := c.stats.countMiss }), s)) ∨
    (request.event c.currentDir = .reset ∧ c.handle s request = ((none, c.reset), s)) := by
  cases request with
  | addFile disk file isRoot parse =>
    rcases c.read_cases disk file (some isRoot) parse s with ⟨contents, he, hr⟩ | ⟨he, hr⟩
    · exact Or.inl ⟨_, contents, _, parse, he, hr⟩
    · exact Or.inr (Or.inl ⟨_, he, hr⟩)
  | load disk file parse =>
    rcases c.read_cases disk file none parse s with ⟨contents, he, hr⟩ | ⟨he, hr⟩
    · exact Or.inl ⟨_, contents, _, parse, he, hr⟩
    · exact Or.inr (Or.inl ⟨_, he, hr⟩)
  | addSource file contents isRoot parse =>
    exact Or.inl ⟨_, contents, _, parse, rfl, rfl⟩
  | reset => exact Or.inr (Or.inr ⟨rfl, rfl⟩)

theorem accept_noting (c : FileCache H) (path : CanonicalPath) (contents : String)
    (isRoot : Option Bool) (parse : Parser σ H) (s : σ) (log : List (ParseCall H)) :
    c.accept path contents isRoot parse.noting (s, log) =
      ((c.accept path contents isRoot parse s).1,
        (c.accept path contents isRoot parse s).2,
        log ++ (CacheEvent.admitted path contents isRoot).calls c.currentDir
          (some (c.accept path contents isRoot parse s).1.1)) := by
  cases h : c.recorded? path contents with
  | none =>
    rw [accept_fresh c path contents isRoot parse.noting _ h,
      accept_fresh c path contents isRoot parse s h]
    rfl
  | some found =>
    obtain ⟨-, -, -, -, hreuse⟩ := recorded?_eq_some c path contents h
    rw [accept_found c path contents isRoot parse.noting _ h,
      accept_found c path contents isRoot parse s h]
    simp [CacheEvent.calls, store, hreuse]

theorem read_noting (c : FileCache H) (disk : Disk) (file : Path) (isRoot : Option Bool)
    (parse : Parser σ H) (s : σ) (log : List (ParseCall H)) :
    c.read disk file isRoot parse.noting (s, log) =
      ((c.read disk file isRoot parse s).1, (c.read disk file isRoot parse s).2,
        log ++ (CacheEvent.ofRead disk (c.canonicalize file) isRoot).calls c.currentDir
          (c.read disk file isRoot parse s).1.1) := by
  cases h : disk.readText (c.canonicalize file).toPath with
  | ok contents => simp only [CacheEvent.ofRead, read, h, accept_noting]
  | error e => simp only [CacheEvent.ofRead, read, h, CacheEvent.calls, List.append_nil]

/-- Writing down the calls changes nothing else. -/
theorem handle_noting (c : FileCache H) (s : σ) (log : List (ParseCall H))
    (request : CacheRequest σ H) :
    c.handle (s, log) request.noting =
      ((c.handle s request).1, (c.handle s request).2,
        log ++ (request.event c.currentDir).calls c.currentDir (c.handle s request).1.1) := by
  cases request with
  | addFile disk file isRoot parse => exact c.read_noting disk file (some isRoot) parse s log
  | load disk file parse => exact c.read_noting disk file none parse s log
  | addSource file contents isRoot parse =>
    simp only [CacheRequest.noting, handle, addSource, accept_noting, CacheRequest.event,
      canonicalize]
  | reset => simp only [CacheRequest.noting, handle, CacheRequest.event, CacheEvent.calls,
      List.append_nil]

theorem advance_noting (c : FileCache H) (s : σ) (log : List (ParseCall H))
    (requests : List (CacheRequest σ H)) :
    c.advance (s, log) (requests.map CacheRequest.noting) =
      ((c.advance s requests).1, (c.advance s requests).2, log ++ c.calls s requests) := by
  induction requests generalizing c s log with
  | nil => simp [advance, calls]
  | cons request requests ih =>
    have hcalls : c.calls s (request :: requests) =
        (request.event c.currentDir).calls c.currentDir (c.handle s request).1.1 ++
          (c.handle s request).1.2.calls (c.handle s request).2 requests := by
      rw [calls, List.map_cons, advance, handle_noting]
      dsimp only
      rw [ih]
      rfl
    rw [List.map_cons, advance, handle_noting, hcalls, ← List.append_assoc]
    exact ih _ _ _

theorem calls_append (c : FileCache H) (s : σ) (requests : List (CacheRequest σ H))
    (request : CacheRequest σ H) :
    c.calls s (requests ++ [request]) = c.calls s requests ++
      (request.event (c.advance s requests).1.currentDir).calls
        (c.advance s requests).1.currentDir
        ((c.advance s requests).1.handle (c.advance s requests).2 request).1.1 := by
  have hlog := c.advance_noting s [] requests
  rw [calls, List.map_append, advance_append, hlog]
  simp only [List.map_cons, List.map_nil, advance, handle_noting, List.nil_append]

theorem handle_currentDir (c : FileCache H) (s : σ) (request : CacheRequest σ H) :
    (c.handle s request).1.2.currentDir = c.currentDir := by
  rcases c.handle_cases s request with ⟨_, _, _, _, -, h⟩ | ⟨_, -, h⟩ | ⟨-, h⟩
  · rw [h, accept_currentDir]
  · rw [h]
  · rw [h]
    rfl

theorem handle_dependencyDir (c : FileCache H) (s : σ) (request : CacheRequest σ H) :
    (c.handle s request).1.2.dependencyDir = c.dependencyDir := by
  rcases c.handle_cases s request with ⟨_, _, _, _, -, h⟩ | ⟨_, -, h⟩ | ⟨-, h⟩
  · rw [h, accept_dependencyDir]
  · rw [h]
  · rw [h]
    rfl

theorem advance_currentDir (c : FileCache H) (s : σ) (requests : List (CacheRequest σ H)) :
    (c.advance s requests).1.currentDir = c.currentDir := by
  induction requests generalizing c s with
  | nil => rfl
  | cons request requests ih => exact (ih _ _).trans (c.handle_currentDir s request)

theorem empty_advance_currentDir (currentDir : CanonicalPath) (dependencyDir : String) (s : σ)
    (requests : List (CacheRequest σ H)) :
    ((empty currentDir dependencyDir).advance s requests).1.currentDir = currentDir :=
  advance_currentDir _ s requests

theorem advance_dependencyDir (c : FileCache H) (s : σ) (requests : List (CacheRequest σ H)) :
    (c.advance s requests).1.dependencyDir = c.dependencyDir := by
  induction requests generalizing c s with
  | nil => rfl
  | cons request requests ih => exact (ih _ _).trans (c.handle_dependencyDir s request)

theorem empty_advance_dependencyDir (currentDir : CanonicalPath) (dependencyDir : String) (s : σ)
    (requests : List (CacheRequest σ H)) :
    ((empty currentDir dependencyDir).advance s requests).1.dependencyDir = dependencyDir :=
  advance_dependencyDir _ s requests

/-- What holds of a new cache before any event and any call, and is kept by every request,
holds after every run. -/
theorem advance_induction {I : FileCache H → List CacheEvent → List (ParseCall H) → Prop}
    (currentDir : CanonicalPath) (dependencyDir : String)
    (hempty : I (empty currentDir dependencyDir) [] [])
    (hstep : ∀ c past log (s : σ) request, I c past log →
      I (c.handle s request).1.2 (request.event c.currentDir :: past)
        (log ++ (request.event c.currentDir).calls c.currentDir (c.handle s request).1.1))
    (s : σ) (requests : List (CacheRequest σ H)) :
    I ((empty currentDir dependencyDir).advance s requests).1 (history currentDir requests)
      ((empty currentDir dependencyDir).calls s requests) := by
  induction requests using List.reverseRecOn with
  | nil => exact hempty
  | append_singleton requests request ih =>
    have hdir := empty_advance_currentDir (H := H) currentDir dependencyDir s requests
    have hnext := hstep _ _ _ ((empty currentDir dependencyDir).advance s requests).2 request ih
    rw [hdir] at hnext
    rw [advance_append, calls_append, history_append, hdir]
    exact hnext

end FileCache

end Rebuild
