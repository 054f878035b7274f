import Rebuild.Proofs.Cache.Roots
import Rebuild.Proofs.Host.Generation
import Rebuild.Disk.Edit
import Rebuild.Service.Sketch

/-!
# The roots of a compiled generation

From the first pass on no file is added any more. Passes go on to read files,
and the texts on the disk may change, but a file that is read keeps the flag
it has. So all passes of a generation start from the roots of the first one.
-/

set_option autoImplicit false

namespace Rebuild

variable {σ τ H : Type}

namespace FileCache

/-- Files may have been read again or for the first time. The roots are the same, and no
record has left the current generation. -/
structure Grown (c d : FileCache H) : Prop where
  rootPaths : d.rootPaths = c.rootPaths
  kept : ∀ path ∈ c.current, path ∈ d.current

namespace Grown

theorem refl (c : FileCache H) : c.Grown c := ⟨rfl, fun _ hp => hp⟩

theorem trans {c d e : FileCache H} (hd : c.Grown d) (he : d.Grown e) : c.Grown e where
  rootPaths := he.rootPaths.trans hd.rootPaths
  kept path hp := he.kept path (hd.kept path hp)

end Grown

theorem load_grown (c : FileCache H) (disk : Disk) (file : Path) (parse : Parser σ H) (s : σ) :
    c.Grown (c.read disk file none parse s).1.2 where
  rootPaths := c.load_rootPaths disk file parse s
  kept path hp := by
    rcases c.read_cases disk file none parse s with ⟨contents, -, h⟩ | ⟨-, h⟩
    · rw [h]
      dsimp only
      rw [accept_current]
      exact Std.TreeMap.mem_insert.mpr (Or.inr hp)
    · rw [h]
      exact hp

theorem loads_grown (c : FileCache H) (s : σ) (loads : List (CacheRequest σ H))
    (h : ∀ request ∈ loads, ∃ disk file parse, request = .load disk file parse) :
    c.Grown (c.advance s loads).1 := by
  induction loads generalizing c s with
  | nil => exact .refl c
  | cons request loads ih =>
    obtain ⟨disk, file, parse, rfl⟩ := h request (List.mem_cons_self ..)
    rw [advance]
    exact (c.load_grown disk file parse s).trans
      (ih _ _ (fun request hr => h request (List.mem_cons_of_mem _ hr)))

end FileCache

namespace Host

theorem keep_cache (h : Host σ H) (r : Option (Admission H) × FileCache H) :
    (h.keep r).2.cache = r.2 := by
  obtain ⟨admission, cache⟩ := r
  cases admission <;> rfl

theorem serve_grown (h : Host σ H) (disk : Disk) (session : Session σ H) :
    h.cache.Grown (h.serve disk session).2.cache := by
  induction session generalizing h with
  | finish result state =>
    rw [serve_finish]
    exact .refl h.cache
  | read path state next ih =>
    have hload := h.cache.load_grown disk path h.service.parse state
    rw [← keep_cache h] at hload
    rw [serve_read]
    exact hload.trans (ih _ _ _)

theorem review_cache (r : Except InternalError (Program σ) × Host σ H) :
    (review r).2.cache = r.2.cache := by
  obtain ⟨answer, next⟩ := r
  cases answer <;> rfl

theorem compile_grown (h : Host σ H) (disk : Disk) : h.cache.Grown (h.compile disk).2.cache := by
  rw [compile_host, conclude_eq, pass_eq]
  dsimp only
  rw [review_cache]
  exact h.begin.serve_grown disk h.session

theorem Effect.grown {h next : Host σ H} {disk : Disk} {request : Request} {calls : Calls}
    (he : h.Effect disk request calls next) (hreset : request.isReset = false)
    (hphase : h.phase = .compiled) : next.phase = .compiled ∧ h.cache.Grown next.cache := by
  cases he with
  | reset => cases hreset
  | still _ _ => exact ⟨hphase, .refl h.cache⟩
  | reads _ _ hidle _ => exact absurd hphase hidle
  | compile => exact ⟨h.compile_phase disk, h.compile_grown disk⟩
  | retrieves _ _ _ => exact ⟨compile_phase _ disk, compile_grown (h.attempt _) disk⟩

theorem grown_after (h : Host σ H) (hphase : h.phase = .compiled) (turns : List (Turn σ))
    (hturns : ∀ t ∈ turns, t.isReset = false) :
    (h.after turns).phase = .compiled ∧ h.cache.Grown (h.after turns).cache := by
  refine after_induction (P := fun k => k.phase = .compiled ∧ h.cache.Grown k.cache)
    ⟨hphase, .refl h.cache⟩ turns ?_ ?_ (Turn.absurd_reset hturns)
  · intro k state listeners rewriter hk
    exact hk
  · rintro k disk request calls next ⟨hk, hgrown⟩ hreset he
    obtain ⟨hnext, hmore⟩ := he.grown hreset hk
    exact ⟨hnext, hgrown.trans hmore⟩

/-- The roots are fixed by the first pass. Until the next reset the root paths are the same and
every record stays, also if the disk changes from one read of a pass to the next, and each
attempt to add a file is refused. -/
theorem compiled_roots_fixed (h : Host σ H) (hphase : h.phase = .compiled)
    (turns : List (Turn σ)) (hturns : ∀ t ∈ turns, t.isReset = false) :
    let k := h.after turns
    k.phase = .compiled ∧
    k.cache.rootPaths = h.cache.rootPaths ∧
    (∀ path ∈ h.cache.current, path ∈ k.cache.current) ∧
    (∀ (loads : List (CacheRequest τ H)) (t : τ),
      (∀ request ∈ loads, ∃ disk file parse, request = .load disk file parse) →
      h.cache.Grown (k.cache.advance t loads).1) ∧
    (∀ disk path isRoot,
      k.addFile disk path isRoot = (.error (.addAfterCompile path), k)) ∧
    (∀ disk rows first rest, (EntrySelection.ofRows rows).entries = first :: rest →
      k.addEntries disk rows = (.error (.addAfterCompile first), k)) := by
  intro k
  obtain ⟨hk, hgrown⟩ := h.grown_after hphase turns hturns
  refine ⟨hk, hgrown.rootPaths, hgrown.kept, ?_, ?_, ?_⟩
  · intro loads t hloads
    exact hgrown.trans (k.cache.loads_grown t loads hloads)
  · intro disk path isRoot
    exact addFile_compiled k disk path isRoot hk
  · intro disk rows first rest hentries
    rw [addEntries_compiled k disk rows hk, hentries]

theorem compiled_roots_fixed_sketch :
    let before := Disk.empty.apply (.file ⟨"/a.ts"⟩ "one".toUTF8)
    let after := Disk.empty.apply (.file ⟨"/a.ts"⟩ "two".toUTF8)
    let h := (ofService Sketch.service .empty (.default ⟨"/"⟩)).after
      [.handle before (.addFile ⟨"a.ts"⟩ true), .handle before .compile]
    let turns : List (Turn Sketch.ParseLog) :=
      [.handle after .compile, .handle .empty (.retrieve ⟨"b.ts"⟩)]
    h.Reachable ∧ h.phase = .compiled ∧ (∀ t ∈ turns, t.isReset = false) ∧
      (h.after turns).cache.rootPaths = h.cache.rootPaths ∧
      (h.after turns).addFile after ⟨"b.ts"⟩ true =
        (.error (.addAfterCompile ⟨"b.ts"⟩), h.after turns) := by
  intro before after h turns
  have hr : h.Reachable := (Reachable.start _ _ _).after _
  have hphase : h.phase = .compiled := compile_phase _ before
  have hturns : ∀ t ∈ turns, t.isReset = false := by simp [turns, Turn.isReset, Request.isReset]
  have hfixed := compiled_roots_fixed (τ := Sketch.ParseLog) h hphase turns hturns
  exact ⟨hr, hphase, hturns, hfixed.2.1, hfixed.2.2.2.2.1 after ⟨"b.ts"⟩ true⟩

end Host

end Rebuild
