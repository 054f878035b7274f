import Rebuild.Proofs.Cache.Difference
import Rebuild.Proofs.Cache.Provenance

/-!
# The roots of a run

A compile starts from the files whose latest flag since the last reset made
them a root and from the dependencies. Which files these are is decided for
each path on its own, by what was admitted under it since the last reset.
-/

set_option autoImplicit false

namespace Rebuild

variable {σ τ H : Type}

def admissionsOf (path : CanonicalPath) : List CacheEvent → List (String × Option Bool)
  | [] => []
  | .admitted q contents isRoot :: past =>
    if q = path then (contents, isRoot) :: admissionsOf path past else admissionsOf path past
  | .missed _ :: past => admissionsOf path past
  | .reset :: _ => []

def rootFlag? (admissions : List (String × Option Bool)) : Option Bool :=
  if admissions = [] then none else some ((admissions.findSome? Prod.snd).getD false)

theorem rootFlag?_getD (admissions : List (String × Option Bool)) :
    (rootFlag? admissions).getD false = (admissions.findSome? Prod.snd).getD false := by
  rw [rootFlag?]
  split
  · subst admissions
    rfl
  · rfl

theorem rootFlag?_cons (contents : String) (isRoot : Option Bool)
    (admissions : List (String × Option Bool)) :
    rootFlag? ((contents, isRoot) :: admissions) =
      some (isRoot.getD ((rootFlag? admissions).getD false)) := by
  rw [rootFlag?, if_neg (List.cons_ne_nil _ _), rootFlag?_getD]
  cases isRoot <;> rfl

namespace FileCache

theorem pairwise_select (c : FileCache H) (choose : FileRecord H → Bool) :
    (c.select choose).Pairwise (fun p q => compare p q = .lt) := by
  rw [select, List.pairwise_map]
  exact Std.TreeMap.ordered_keys_toList.filter _

theorem mem_select (c : FileCache H) (choose : FileRecord H → Bool) (path : CanonicalPath) :
    path ∈ c.select choose ↔ ∃ r, c.current[path]? = some r ∧ choose r = true := by
  simp only [select, List.mem_map, List.mem_filter, Prod.exists, exists_and_right,
    exists_eq_right, Std.TreeMap.mem_toList_iff_getElem?_eq_some]

theorem mem_rootPaths (c : FileCache H) (path : CanonicalPath) :
    path ∈ c.rootPaths ↔ c.current[path]?.map FileRecord.isRoot = some true := by
  rw [rootPaths, mem_select, Option.map_eq_some_iff]

theorem pairwise_rootNames (c : FileCache H) :
    c.rootNames.Pairwise (fun p q => compare p q = .lt) := Std.TreeSet.ordered_toList

theorem mem_rootNames (c : FileCache H) (path : CanonicalPath) :
    path ∈ c.rootNames ↔
      ∃ r, c.current[path]? = some r ∧ (r.isRoot = true ∨ r.isDependency = true) := by
  rw [rootNames, Std.TreeSet.mem_toList, Std.TreeSet.mem_ofList, List.contains_iff_mem,
    List.mem_append, rootPaths, dependencyPaths, mem_select, mem_select, ← exists_or]
  simp only [← and_or_left]

theorem accept_rootPaths (c : FileCache H) (path : CanonicalPath) (contents : String)
    (parse : Parser σ H) (s : σ) :
    (c.accept path contents none parse s).1.2.rootPaths = c.rootPaths := by
  apply eq_of_mem_iff (pairwise_select _ _) (pairwise_select _ _)
  intro q
  rw [← rootPaths, ← rootPaths, mem_rootPaths, mem_rootPaths, accept_current, generation_insert]
  split
  · subst q
    cases hr : c.current[path]? with
    | none => simp [record, rootFlag, hr]
    | some r => simp [record, rootFlag, hr]
  · rfl

theorem load_rootPaths (c : FileCache H) (disk : Disk) (file : Path) (parse : Parser σ H)
    (s : σ) : (c.load disk file parse s).1.2.rootPaths = c.rootPaths := by
  rcases c.read_cases disk file none parse s with ⟨contents, -, h⟩ | ⟨-, h⟩
  · rw [load, h, accept_rootPaths]
  · rw [load, h]
    rfl

theorem loads_rootPaths (c : FileCache H) (s : σ) (loads : List (CacheRequest σ H))
    (h : ∀ request ∈ loads, ∃ disk file parse, request = .load disk file parse) :
    (c.advance s loads).1.rootPaths = c.rootPaths := by
  induction loads generalizing c s with
  | nil => rfl
  | cons request loads ih =>
    obtain ⟨disk, file, parse, rfl⟩ := h request (by simp)
    rw [advance, ih _ _ (fun request hr => h request (by simp [hr]))]
    exact c.load_rootPaths disk file parse s

theorem reset_rootPaths (c : FileCache H) : c.reset.rootPaths = [] := by
  apply List.eq_nil_iff_forall_not_mem.mpr
  intro path
  rw [mem_rootPaths]
  simp [reset]

/-- The current generation has the flags that the history leaves. -/
def Flagged (c : FileCache H) (past : List CacheEvent) : Prop :=
  ∀ path, c.current[path]?.map FileRecord.isRoot = rootFlag? (admissionsOf path past)

theorem flagged_accept {c : FileCache H} {past : List CacheEvent} (h : c.Flagged past)
    (path : CanonicalPath) (contents : String) (isRoot : Option Bool) (parse : Parser σ H)
    (s : σ) :
    (c.accept path contents isRoot parse s).1.2.Flagged
      (.admitted path contents isRoot :: past) := by
  intro q
  rw [accept_current, generation_insert, admissionsOf]
  split
  · subst q
    rw [rootFlag?_cons, ← h path]
    rfl
  · exact h q

theorem flagged_handle {c : FileCache H} {past : List CacheEvent} (h : c.Flagged past) (s : σ)
    (request : CacheRequest σ H) :
    (c.handle s request).1.2.Flagged (request.event c.currentDir :: past) := by
  rcases c.handle_cases s request with ⟨path, contents, isRoot, parse, he, hr⟩ | ⟨_, he, hr⟩ |
    ⟨he, hr⟩
  · rw [he, hr]
    exact flagged_accept h path contents isRoot parse s
  · rw [he, hr]
    exact h
  · rw [he, hr]
    intro path
    simp [reset, admissionsOf, rootFlag?]

variable (currentDir : CanonicalPath) (dependencyDir : String)

theorem flagged_advance (s : σ) (requests : List (CacheRequest σ H)) :
    ((empty currentDir dependencyDir).advance s requests).1.Flagged
      (history currentDir requests) :=
  advance_induction (I := fun c past _ => c.Flagged past) currentDir dependencyDir
    (fun path => by simp [empty, admissionsOf, rootFlag?])
    (fun _ _ _ s request h => flagged_handle h s request) s requests

theorem mem_advance_rootNames (s : σ) (requests : List (CacheRequest σ H))
    (path : CanonicalPath) :
    path ∈ ((empty currentDir dependencyDir).advance s requests).1.rootNames ↔
      admissionsOf path (history currentDir requests) ≠ [] ∧
      ((admissionsOf path (history currentDir requests)).findSome? Prod.snd = some true ∨
        path.IsDependency dependencyDir) := by
  have hroot := flagged_advance (H := H) currentDir dependencyDir s requests path
  rw [mem_rootNames]
  rw [rootFlag?] at hroot
  cases hr : ((empty currentDir dependencyDir).advance s requests).1.current[path]? with
  | none =>
    have hnone : admissionsOf path (history currentDir requests) = [] := by
      by_contra hne
      simp [hr, hne] at hroot
    simp [hnone]
  | some r =>
    have hdependency :=
      (each_vouched_advance currentDir dependencyDir s requests path r (Or.inl hr)).flag
    rw [empty_advance_dependencyDir] at hdependency
    rw [hr, Option.map_some] at hroot
    split at hroot
    · cases hroot
    · rename_i hne
      have hflag : r.isRoot = true ↔
          (admissionsOf path (history currentDir requests)).findSome? Prod.snd = some true := by
        rw [Option.some.inj hroot]
        cases (admissionsOf path (history currentDir requests)).findSome? Prod.snd <;> simp
      simp only [Option.some.injEq, exists_eq_left', hflag, hdependency, ne_eq, hne,
        not_false_eq_true, true_and]

/-- The root list is the ordered list of the files that are roots by their own flags or that
are dependencies. Loads and earlier generations have no part in the flags, and neither has
the order in which different paths were admitted. -/
theorem run_rootNames (s : σ) (requests : List (CacheRequest σ H)) :
    let c : FileCache H := ((empty currentDir dependencyDir).advance s requests).1
    let past := history currentDir requests
    c.rootNames.Pairwise (fun p q => compare p q = .lt) ∧
    (∀ path, path ∈ c.rootNames ↔
      admissionsOf path past ≠ [] ∧
      ((admissionsOf path past).findSome? Prod.snd = some true ∨
        path.IsDependency dependencyDir)) ∧
    (∀ disk file (parse : Parser τ H) t,
      (c.load disk file parse t).1.2.rootPaths = c.rootPaths) ∧
    (∀ (loads : List (CacheRequest τ H)) t,
      (∀ request ∈ loads, ∃ disk file parse, request = .load disk file parse) →
      (c.reset.advance t loads).1.rootPaths = []) ∧
    (∀ (others : List (CacheRequest τ H)) t,
      (∀ path, admissionsOf path (history currentDir others) = admissionsOf path past) →
      ((empty currentDir dependencyDir).advance t others).1.rootNames = c.rootNames) := by
  refine ⟨pairwise_rootNames _, mem_advance_rootNames currentDir dependencyDir s requests,
    fun disk file parse t => load_rootPaths _ disk file parse t, ?_, ?_⟩
  · intro loads t hloads
    rw [loads_rootPaths _ t loads hloads, reset_rootPaths]
  · intro others t hothers
    apply eq_of_mem_iff (pairwise_rootNames _) (pairwise_rootNames _)
    intro path
    rw [mem_advance_rootNames, mem_advance_rootNames, hothers path]

end FileCache

end Rebuild
