import Rebuild.Proofs.Cache.Run

/-!
# When a parsed form is used again

Whether an admission parses is decided by the history alone: by the text that
was last admitted under the path in this generation, and then by the last one
in the generation before it. The two generations of the cache hold just these
texts. Hashes play no part, as equal hashes of different texts are told apart.
-/

set_option autoImplicit false

namespace Rebuild

variable {σ H : Type}

namespace CacheEvent

/-- Where the parsed form of an admitted text comes from, after all that has happened. -/
def reuse? (past : List CacheEvent) : CacheEvent → Option Reuse
  | .admitted path contents _ =>
    if lastText path past = some contents then some .current
    else if lastText path (beforeReset past) = some contents then some .previous
    else some .fresh
  | .missed _ => none
  | .reset => none

def question? (currentDir : CanonicalPath) : CacheEvent → Option (Path × String)
  | .admitted path contents _ => some (path.relativeTo currentDir, contents)
  | .missed _ => none
  | .reset => none

def isMiss : CacheEvent → Bool
  | .missed _ => true
  | .admitted _ _ _ => false
  | .reset => false

end CacheEvent

def reuses : List CacheEvent → List (Option Reuse)
  | [] => []
  | e :: past => e.reuse? past :: reuses past

def freshQuestions (currentDir : CanonicalPath) : List CacheEvent → List (Path × String)
  | [] => []
  | e :: past =>
    if e.reuse? past = some .fresh then
      (e.question? currentDir).toList ++ freshQuestions currentDir past
    else freshQuestions currentDir past

def tally (past : List CacheEvent) : CacheStats where
  freshParses := (reuses past).count (some .fresh)
  currentHits := (reuses past).count (some .current)
  previousHits := (reuses past).count (some .previous)
  readMisses := past.countP CacheEvent.isMiss

namespace FileCache

/-- Both generations hold the texts last admitted in them. -/
structure Remembers (c : FileCache H) (past : List CacheEvent) : Prop where
  hashed : c.Each fun _ r => r.hash = .ofText r.contents
  current : ∀ path, c.current[path]?.map FileRecord.contents = lastText path past
  previous : ∀ path, c.previous[path]?.map FileRecord.contents = lastText path (beforeReset past)

theorem remembers_empty (currentDir : CanonicalPath) (dependencyDir : String) :
    (empty currentDir dependencyDir : FileCache H).Remembers [] where
  hashed := each_empty _ _
  current path := by simp [empty, lastText]
  previous path := by simp [empty, lastText, beforeReset]

theorem remembers_accept {c : FileCache H} {past : List CacheEvent} (h : c.Remembers past)
    (path : CanonicalPath) (contents : String) (isRoot : Option Bool) (parse : Parser σ H)
    (s : σ) :
    (c.accept path contents isRoot parse s).1.2.Remembers
      (.admitted path contents isRoot :: past) where
  hashed := each_accept h.hashed rfl
  current q := by
    rw [accept_current, generation_insert, lastText]
    split
    · rfl
    · exact h.current q
  previous q := by
    rw [accept_previous, beforeReset]
    exact h.previous q

theorem remembers_reset {c : FileCache H} {past : List CacheEvent} (h : c.Remembers past) :
    c.reset.Remembers (.reset :: past) where
  hashed := each_reset h.hashed
  current path := by simp [reset, lastText]
  previous path := h.current path

theorem remembers_handle {c : FileCache H} {past : List CacheEvent} (h : c.Remembers past)
    (s : σ) (request : CacheRequest σ H) :
    (c.handle s request).1.2.Remembers (request.event c.currentDir :: past) := by
  rcases c.handle_cases s request with ⟨path, contents, isRoot, parse, he, hr⟩ | ⟨_, he, hr⟩ |
    ⟨he, hr⟩
  · rw [he, hr]
    exact remembers_accept h path contents isRoot parse s
  · rw [he, hr]
    exact ⟨h.hashed, h.current, h.previous⟩
  · rw [he, hr]
    exact remembers_reset h

theorem remembers_advance (currentDir : CanonicalPath) (dependencyDir : String) (s : σ)
    (requests : List (CacheRequest σ H)) :
    ((empty currentDir dependencyDir).advance s requests).1.Remembers
      (history currentDir requests) :=
  advance_induction (I := fun c past _ => c.Remembers past) currentDir dependencyDir
    (remembers_empty currentDir dependencyDir)
    (fun _ _ _ s request h => remembers_handle h s request) s requests

theorem handle_reuse {c : FileCache H} {past : List CacheEvent} (h : c.Remembers past) (s : σ)
    (request : CacheRequest σ H) :
    (c.handle s request).1.1.map Admission.reuse = (request.event c.currentDir).reuse? past := by
  rcases c.handle_cases s request with ⟨path, contents, isRoot, parse, he, hr⟩ | ⟨_, he, hr⟩ |
    ⟨he, hr⟩
  · rw [he, hr, Option.map_some, accept_reuse, recorded?_reuse c path contents h.hashed,
      h.current, h.previous, CacheEvent.reuse?]
    split
    · rfl
    · split <;> rfl
  · rw [he, hr]
    rfl
  · rw [he, hr]
    rfl

theorem handle_stats {c : FileCache H} {past : List CacheEvent} (h : c.Remembers past)
    (hs : c.stats = tally past) (s : σ) (request : CacheRequest σ H) :
    (c.handle s request).1.2.stats = tally (request.event c.currentDir :: past) := by
  have hreuse := handle_reuse h s request
  rcases c.handle_cases s request with ⟨path, contents, isRoot, parse, he, hr⟩ | ⟨_, he, hr⟩ |
    ⟨he, hr⟩
  · rw [he, hr] at hreuse
    rw [he, hr, accept_stats, hs]
    simp only [tally, reuses, ← hreuse, Option.map_some]
    cases (c.accept path contents isRoot parse s).1.1.reuse <;>
      simp [CacheStats.count, CacheEvent.isMiss]
  · rw [he, hr, hs]
    simp [tally, reuses, CacheEvent.reuse?, CacheStats.countMiss, List.countP_cons,
      CacheEvent.isMiss]
  · rw [he, hr]
    simp [reset, hs, tally, reuses, CacheEvent.reuse?, CacheEvent.isMiss]

theorem handle_questions {c : FileCache H} {past : List CacheEvent} (h : c.Remembers past) (s : σ)
    (request : CacheRequest σ H) :
    ((request.event c.currentDir).calls c.currentDir (c.handle s request).1.1).map
        (fun k => (k.name, k.contents)) =
      if (request.event c.currentDir).reuse? past = some .fresh then
        ((request.event c.currentDir).question? c.currentDir).toList
      else [] := by
  rw [← handle_reuse h s request]
  rcases c.handle_cases s request with ⟨path, contents, isRoot, parse, he, hr⟩ | ⟨_, he, hr⟩ |
    ⟨he, hr⟩
  · rw [he, hr]
    simp only [CacheEvent.calls, Option.map_some, Option.some.injEq, CacheEvent.question?]
    split <;> rfl
  · rw [he, hr]
    rfl
  · rw [he, hr]
    rfl

theorem answers_reuse (currentDir : CanonicalPath) (dependencyDir : String) (s : σ)
    (requests : List (CacheRequest σ H)) :
    ((empty currentDir dependencyDir).answers s requests).map (Option.map Admission.reuse) =
      (reuses (history currentDir requests)).reverse := by
  induction requests using List.reverseRecOn with
  | nil => rfl
  | append_singleton requests request ih =>
    have hdir := empty_advance_currentDir (H := H) currentDir dependencyDir s requests
    have hstep := handle_reuse (remembers_advance currentDir dependencyDir s requests)
      ((empty currentDir dependencyDir).advance s requests).2 request
    rw [hdir] at hstep
    rw [answers_append, List.map_append, ih, history_append, reuses, List.reverse_cons]
    exact congrArg (_ ++ [·]) hstep

theorem calls_questions (currentDir : CanonicalPath) (dependencyDir : String) (s : σ)
    (requests : List (CacheRequest σ H)) :
    ((empty currentDir dependencyDir).calls s requests).map (fun k => (k.name, k.contents)) =
      (freshQuestions currentDir (history currentDir requests)).reverse := by
  have hrun := advance_induction (σ := σ) (H := H) (I := fun c past log => c.Remembers past ∧
      log.map (fun k => (k.name, k.contents)) = (freshQuestions c.currentDir past).reverse)
    currentDir dependencyDir ⟨remembers_empty currentDir dependencyDir, rfl⟩
    (fun c past log s request h => by
      refine ⟨remembers_handle h.1 s request, ?_⟩
      rw [List.map_append, h.2, handle_questions h.1, handle_currentDir, freshQuestions]
      split
      · cases (request.event c.currentDir).question? c.currentDir <;> simp
      · simp)
    s requests
  rw [empty_advance_currentDir] at hrun
  exact hrun.2

theorem advance_stats (currentDir : CanonicalPath) (dependencyDir : String) (s : σ)
    (requests : List (CacheRequest σ H)) :
    ((empty currentDir dependencyDir).advance s requests).1.stats =
      tally (history currentDir requests) := by
  have hrun := advance_induction (σ := σ) (H := H)
    (I := fun c past _ => c.Remembers past ∧ c.stats = tally past) currentDir dependencyDir
    ⟨remembers_empty currentDir dependencyDir, rfl⟩
    (fun _ _ _ s request h => ⟨remembers_handle h.1 s request, handle_stats h.1 h.2 s request⟩)
    s requests
  exact hrun.2

/-- The whole decision of a run, read off its history: what each admission is tagged with,
what the parsers are asked, and the statistics. -/
theorem run_decided_by_history (currentDir : CanonicalPath) (dependencyDir : String) (s : σ)
    (requests : List (CacheRequest σ H)) :
    let c : FileCache H := empty currentDir dependencyDir
    let past := history currentDir requests
    (c.answers s requests).map (Option.map Admission.reuse) = (reuses past).reverse ∧
    (c.calls s requests).map (fun k => (k.name, k.contents)) =
      (freshQuestions currentDir past).reverse ∧
    (c.advance s requests).1.stats.freshParses = (reuses past).count (some .fresh) ∧
    (c.advance s requests).1.stats.currentHits = (reuses past).count (some .current) ∧
    (c.advance s requests).1.stats.previousHits = (reuses past).count (some .previous) ∧
    (c.advance s requests).1.stats.readMisses = past.countP CacheEvent.isMiss := by
  have hstats := advance_stats (H := H) currentDir dependencyDir s requests
  refine ⟨answers_reuse currentDir dependencyDir s requests,
    calls_questions currentDir dependencyDir s requests, ?_⟩
  rw [hstats]
  exact ⟨rfl, rfl, rfl, rfl⟩

end FileCache

end Rebuild
