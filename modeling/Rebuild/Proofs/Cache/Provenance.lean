import Rebuild.Proofs.Cache.Run

/-!
# Where parsed forms come from

A parsed form may be handed on through any number of generations. It is still
what a parser once made of this text under this name, and the record that
keeps it says of the file only what its path and its text say.
-/

set_option autoImplicit false

namespace Rebuild

variable {σ H : Type}

namespace FileCache

/-- What a record has to say that is kept under a path, if these calls have been made. -/
structure Vouched (currentDir : CanonicalPath) (dependencyDir : String)
    (log : List (ParseCall H)) (path : CanonicalPath) (r : FileRecord H) : Prop where
  key : r.path = path
  name : r.relativePath = path.relativeTo currentDir
  hash : r.hash = .ofText r.contents
  flag : r.isDependency = true ↔ path.IsDependency dependencyDir
  call : ⟨path.relativeTo currentDir, r.contents, r.parsed⟩ ∈ log

theorem Vouched.append {currentDir path : CanonicalPath} {dependencyDir : String}
    {log : List (ParseCall H)} {r : FileRecord H}
    (h : Vouched currentDir dependencyDir log path r) (more : List (ParseCall H)) :
    Vouched currentDir dependencyDir (log ++ more) path r :=
  { h with call := List.mem_append_left _ h.call }

variable {c : FileCache H} {log : List (ParseCall H)}

theorem accept_vouched (h : c.Each (Vouched c.currentDir c.dependencyDir log))
    (path : CanonicalPath) (contents : String) (isRoot : Option Bool) (parse : Parser σ H)
    (s : σ) :
    ⟨path.relativeTo c.currentDir, contents, (c.accept path contents isRoot parse s).1.1.parsed⟩ ∈
      log ++ (CacheEvent.admitted path contents isRoot).calls c.currentDir
        (some (c.accept path contents isRoot parse s).1.1) := by
  rcases c.accept_parsed path contents isRoot parse s with ⟨r, hr, hc, hp⟩ | ⟨hf, -⟩
  · have hlog := (h path r hr).call
    rw [hc, ← hp] at hlog
    exact List.mem_append_left _ hlog
  · simp [CacheEvent.calls, hf]

theorem handle_vouched (h : c.Each (Vouched c.currentDir c.dependencyDir log)) (s : σ)
    (request : CacheRequest σ H) {path : CanonicalPath} {contents : String}
    {isRoot : Option Bool} (he : request.event c.currentDir = .admitted path contents isRoot) :
    ∃ a, (c.handle s request).1.1 = some a ∧
      ⟨path.relativeTo c.currentDir, contents, a.parsed⟩ ∈
        log ++ (request.event c.currentDir).calls c.currentDir (c.handle s request).1.1 := by
  rcases c.handle_cases s request with ⟨_, _, _, parse, he', hr⟩ | ⟨_, he', -⟩ | ⟨he', -⟩
  · rw [he] at he'
    cases he'
    rw [hr, he]
    exact ⟨_, rfl, accept_vouched h path contents isRoot parse s⟩
  · rw [he] at he'
    cases he'
  · rw [he] at he'
    cases he'

theorem each_vouched_handle (h : c.Each (Vouched c.currentDir c.dependencyDir log)) (s : σ)
    (request : CacheRequest σ H) :
    (c.handle s request).1.2.Each (Vouched c.currentDir c.dependencyDir
      (log ++ (request.event c.currentDir).calls c.currentDir (c.handle s request).1.1)) := by
  have hmore := h.mono (fun _ _ hr => hr.append
    ((request.event c.currentDir).calls c.currentDir (c.handle s request).1.1))
  rcases c.handle_cases s request with ⟨path, contents, isRoot, parse, he, hr⟩ | ⟨_, he, hr⟩ |
    ⟨he, hr⟩
  · rw [he, hr] at hmore ⊢
    exact each_accept hmore {
      key := rfl
      name := rfl
      hash := rfl
      flag := c.isDependency_iff path
      call := accept_vouched h path contents isRoot parse s }
  · rw [he, hr] at hmore ⊢
    exact hmore
  · rw [he, hr] at hmore ⊢
    exact each_reset hmore

variable (currentDir : CanonicalPath) (dependencyDir : String)

theorem each_vouched_advance (s : σ) (requests : List (CacheRequest σ H)) :
    ((empty currentDir dependencyDir).advance s requests).1.Each
      (Vouched ((empty currentDir dependencyDir).advance s requests).1.currentDir
        ((empty currentDir dependencyDir).advance s requests).1.dependencyDir
        ((empty currentDir dependencyDir).calls s requests)) :=
  advance_induction (I := fun c _ log => c.Each (Vouched c.currentDir c.dependencyDir log))
    currentDir dependencyDir (each_empty currentDir dependencyDir)
    (fun c _ log s request h => by
      rw [handle_currentDir, handle_dependencyDir]
      exact each_vouched_handle h s request)
    s requests

/-- No parsed form is stale or of another file. What is recorded in either generation, and
what is answered to an admission, was made by a parser in this run from the name and the
text of the file. -/
theorem run_parsed_forms (s : σ) (requests : List (CacheRequest σ H)) :
    let c : FileCache H := ((empty currentDir dependencyDir).advance s requests).1
    (∀ (path : CanonicalPath) (r : FileRecord H),
      c.current[path]? = some r ∨ c.previous[path]? = some r →
      r.path = path ∧ r.relativePath = path.relativeTo currentDir ∧
      r.hash = .ofText r.contents ∧
      (r.isDependency = true ↔ path.IsDependency dependencyDir) ∧
      ⟨path.relativeTo currentDir, r.contents, r.parsed⟩ ∈
        (empty currentDir dependencyDir).calls s requests) ∧
    (∀ (request : CacheRequest σ H) path contents isRoot,
      request.event currentDir = .admitted path contents isRoot →
      ∃ a, (c.handle ((empty currentDir dependencyDir).advance s requests).2 request).1.1 = some a ∧
        ⟨path.relativeTo currentDir, contents, a.parsed⟩ ∈
          (empty currentDir dependencyDir).calls s (requests ++ [request])) := by
  have heach := each_vouched_advance currentDir dependencyDir s requests
  have hdir := empty_advance_currentDir (H := H) currentDir dependencyDir s requests
  constructor
  · intro path r hr
    have hv := heach path r hr
    rw [hdir, empty_advance_dependencyDir] at hv
    exact ⟨hv.key, hv.name, hv.hash, hv.flag, hv.call⟩
  · intro request path contents isRoot he
    obtain ⟨a, ha, hlog⟩ := handle_vouched heach
      ((empty currentDir dependencyDir).advance s requests).2 request (by rw [hdir]; exact he)
    rw [← calls_append, hdir] at hlog
    exact ⟨a, ha, hlog⟩

end FileCache

end Rebuild
