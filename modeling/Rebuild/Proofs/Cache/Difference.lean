import Mathlib.Data.List.Sort
import Rebuild.Cache.ChangeSet

/-!
# Exact differences

The difference of two maps puts each file of either map into the one list it
belongs to. The lists are in the order of the paths, so they are known by their
members alone: the order in which the files were visited leaves no trace, and
the difference taken the other way round has the same lists with the new and
the deleted files exchanged.
-/

set_option autoImplicit false

namespace Rebuild

theorem ne_of_compare_lt {p q : CanonicalPath} (h : compare p q = .lt) : p ≠ q := by
  rintro rfl
  have hself : compare p p = .eq := Std.ReflCmp.compare_self
  rw [hself] at h
  cases h

theorem eq_of_mem_iff {ps qs : List CanonicalPath}
    (hps : ps.Pairwise (fun p q => compare p q = .lt))
    (hqs : qs.Pairwise (fun p q => compare p q = .lt)) (h : ∀ p, p ∈ ps ↔ p ∈ qs) : ps = qs := by
  have : Std.Irrefl (fun p q : CanonicalPath => compare p q = .lt) :=
    ⟨fun _ hp => ne_of_compare_lt hp rfl⟩
  have : Std.Antisymm (fun p q : CanonicalPath => compare p q = .lt) :=
    ⟨fun p q hp hq => by rw [Std.OrientedCmp.gt_of_lt hp] at hq; cases hq⟩
  exact hps.eq_of_mem_iff hqs h

theorem isLE_total (p q : CanonicalPath) :
    ((compare p q).isLE || (compare q p).isLE) = true := by
  rw [Bool.or_eq_true]
  by_cases h : (compare p q).isLE = true
  · exact Or.inl h
  · have hlt : compare q p = .lt := Std.OrientedCmp.lt_of_not_isLE h
    rw [hlt]
    exact Or.inr rfl

theorem lt_of_isLE {p q : CanonicalPath} (hle : (compare p q).isLE = true) (hne : p ≠ q) :
    compare p q = .lt := by
  by_contra hlt
  have heq : compare p q = .eq := (Ordering.isLE_iff_eq_lt_or_eq_eq.mp hle).resolve_left hlt
  exact hne (Std.LawfulEqCmp.eq_of_compare heq)

namespace ChangeSet

variable {visited visitedBefore : List (CanonicalPath × ContentHash)}
  {current previous : ContentHashes} {path : CanonicalPath}

/-! ## Selected files -/

theorem mem_select_visited (relation : ContentHash → Option ContentHash → Bool)
    (visited : List (CanonicalPath × ContentHash)) (others : ContentHashes)
    (path : CanonicalPath) :
    path ∈ select relation visited others ↔
      ∃ hash, (path, hash) ∈ visited ∧ relation hash others[path]? = true := by
  simp only [select, List.mem_mergeSort, List.mem_map, List.mem_filter, Prod.exists,
    exists_and_right, exists_eq_right]

theorem mem_select (relation : ContentHash → Option ContentHash → Bool)
    (files others : ContentHashes) (path : CanonicalPath) :
    path ∈ select relation files.toList others ↔
      ∃ hash, files[path]? = some hash ∧ relation hash others[path]? = true := by
  simp only [mem_select_visited, Std.TreeMap.mem_toList_iff_getElem?_eq_some]

theorem nodup_keys (files : ContentHashes) : (files.toList.map Prod.fst).Nodup :=
  List.pairwise_map.mpr (Std.TreeMap.distinct_keys_toList.imp
    (fun h heq => h (Std.LawfulEqCmp.compare_eq_iff_eq.mpr heq)))

theorem pairwise_select (relation : ContentHash → Option ContentHash → Bool)
    (others : ContentHashes) (h : (visited.map Prod.fst).Nodup) :
    (select relation visited others).Pairwise (fun p q => compare p q = .lt) := by
  have hnodup : (select relation visited others).Nodup :=
    (List.mergeSort_perm _ _).nodup_iff.mpr (h.sublist (List.filter_sublist.map _))
  have hsorted : (select relation visited others).Pairwise
      (fun p q => (compare p q).isLE = true) := by
    apply List.pairwise_mergeSort
    · intro p q r hpq hqr
      exact Std.TransCmp.isLE_trans hpq hqr
    · exact isLE_total
  exact (hsorted.and hnodup).imp fun h => lt_of_isLE h.1 h.2

theorem nodup_select (relation : ContentHash → Option ContentHash → Bool)
    (files others : ContentHashes) : (select relation files.toList others).Nodup :=
  (pairwise_select relation others (nodup_keys files)).imp ne_of_compare_lt

theorem select_perm (relation : ContentHash → Option ContentHash → Bool)
    (files others : ContentHashes) (h : visited.Perm files.toList) :
    select relation visited others = select relation files.toList others := by
  have hkeys : (visited.map Prod.fst).Nodup := (h.map Prod.fst).nodup_iff.mpr (nodup_keys files)
  apply eq_of_mem_iff (pairwise_select _ _ hkeys) (pairwise_select _ _ (nodup_keys files))
  intro path
  rw [mem_select_visited, mem_select_visited]
  simp only [h.mem_iff]

theorem visiting_perm (h : visited.Perm current.toList)
    (hbefore : visitedBefore.Perm previous.toList) :
    visiting visited visitedBefore current previous = between current previous := by
  rw [between, visiting, visiting, select_perm _ _ _ h, select_perm _ _ _ h, select_perm _ _ _ h,
    select_perm _ _ _ hbefore]

/-! ## The members of the lists -/

theorem mem_added : path ∈ (between current previous).added ↔
    path ∈ current ∧ path ∉ previous := by
  simp only [between, visiting, mem_select, Std.TreeMap.mem_iff_isSome_getElem?]
  cases current[path]? <;> cases previous[path]? <;> simp

theorem mem_modified : path ∈ (between current previous).modified ↔
    ∃ hash old, current[path]? = some hash ∧ previous[path]? = some old ∧ old ≠ hash := by
  simp only [between, visiting, mem_select]
  cases current[path]? <;> cases previous[path]? <;> simp

theorem mem_deleted : path ∈ (between current previous).deleted ↔
    path ∈ previous ∧ path ∉ current := by
  simp only [between, visiting, mem_select, Std.TreeMap.mem_iff_isSome_getElem?]
  cases current[path]? <;> cases previous[path]? <;> simp

theorem mem_unchanged : path ∈ (between current previous).unchanged ↔
    ∃ hash, current[path]? = some hash ∧ previous[path]? = some hash := by
  simp only [between, visiting, mem_select]
  cases current[path]? <;> cases previous[path]? <;> simp

def lists (c : ChangeSet) : List (List CanonicalPath) :=
  [c.added, c.modified, c.deleted, c.unchanged]

theorem pairwise_lists (current previous : ContentHashes) {files : List CanonicalPath}
    (h : files ∈ (between current previous).lists) :
    files.Pairwise (fun p q => compare p q = .lt) := by
  simp only [between, visiting, lists, List.mem_cons, List.not_mem_nil, or_false] at h
  rcases h with rfl | rfl | rfl | rfl
  · exact pairwise_select _ previous (nodup_keys current)
  · exact pairwise_select _ previous (nodup_keys current)
  · exact pairwise_select _ current (nodup_keys previous)
  · exact pairwise_select _ previous (nodup_keys current)

theorem disjoint_lists (current previous : ContentHashes) :
    (between current previous).lists.Pairwise List.Disjoint := by
  simp only [lists, List.pairwise_cons, List.mem_cons, List.not_mem_nil, or_false,
    forall_eq_or_imp, forall_eq, List.Pairwise.nil, forall_false, implies_true, and_true,
    List.Disjoint, mem_added, mem_modified, mem_deleted, mem_unchanged,
    Std.TreeMap.mem_iff_isSome_getElem?]
  refine ⟨⟨?_, ?_, ?_⟩, ⟨?_, ?_⟩, ?_⟩ <;> intro path <;>
    cases current[path]? <;> cases previous[path]? <;> simp

theorem mem_lists : path ∈ (between current previous).lists.flatten ↔
    path ∈ current ∨ path ∈ previous := by
  simp only [lists, List.flatten_cons, List.flatten_nil, List.append_nil, List.mem_append,
    mem_added, mem_modified, mem_deleted, mem_unchanged, Std.TreeMap.mem_iff_isSome_getElem?]
  cases current[path]? with
  | none => cases previous[path]? <;> simp
  | some hash =>
    cases previous[path]? with
    | none => simp
    | some old => by_cases hsame : old = hash <;> simp [hsame]

theorem isEmpty_iff : (between current previous).isEmpty = true ↔
    ∀ path : CanonicalPath, current[path]? = previous[path]? := by
  simp only [isEmpty, Bool.and_eq_true, List.isEmpty_iff, List.eq_nil_iff_forall_not_mem,
    mem_added, mem_modified, mem_deleted, Std.TreeMap.mem_iff_isSome_getElem?]
  rw [← forall_and, ← forall_and]
  apply forall_congr'
  intro path
  cases current[path]? with
  | none => cases previous[path]? <;> simp
  | some hash =>
    cases previous[path]? with
    | none => simp
    | some old => simp [eq_comm]

theorem between_swap (current previous : ContentHashes) :
    between previous current =
      ⟨(between current previous).deleted, (between current previous).modified,
        (between current previous).added, (between current previous).unchanged⟩ := by
  have hmodified : (between current previous).modified = (between previous current).modified := by
    apply eq_of_mem_iff (pairwise_lists current previous (by simp [lists]))
      (pairwise_lists previous current (by simp [lists]))
    intro path
    rw [mem_modified, mem_modified]
    constructor
    · rintro ⟨hash, old, hhash, hold, hne⟩
      exact ⟨old, hash, hold, hhash, Ne.symm hne⟩
    · rintro ⟨hash, old, hhash, hold, hne⟩
      exact ⟨old, hash, hold, hhash, Ne.symm hne⟩
  have hunchanged :
      (between current previous).unchanged = (between previous current).unchanged := by
    apply eq_of_mem_iff (pairwise_lists current previous (by simp [lists]))
      (pairwise_lists previous current (by simp [lists]))
    intro path
    rw [mem_unchanged, mem_unchanged]
    simp only [and_comm]
  rw [hmodified, hunchanged]
  rfl

/-- The difference of any two maps is exact. Its lists are in strict order, no file is in two of
them, and together they hold the files of both maps. Which list a file is in says whether one map
lacks it or the hashes differ; nothing is new, modified or deleted if and only if the maps are
equal. The difference the other way round exchanges what is new and what is deleted, and the order
in which the files are visited does not matter. -/
theorem between_exact (current previous : ContentHashes) :
    let c := between current previous
    let lists := [c.added, c.modified, c.deleted, c.unchanged]
    (∀ files ∈ lists, files.Pairwise (fun p q => compare p q = .lt)) ∧
    lists.Pairwise List.Disjoint ∧
    (∀ path, path ∈ lists.flatten ↔ path ∈ current ∨ path ∈ previous) ∧
    (∀ path, path ∈ c.added ↔ path ∈ current ∧ path ∉ previous) ∧
    (∀ path, path ∈ c.modified ↔
      ∃ hash old, current[path]? = some hash ∧ previous[path]? = some old ∧ old ≠ hash) ∧
    (∀ path, path ∈ c.deleted ↔ path ∈ previous ∧ path ∉ current) ∧
    (∀ path, path ∈ c.unchanged ↔
      ∃ hash, current[path]? = some hash ∧ previous[path]? = some hash) ∧
    (c.isEmpty = true ↔ ∀ path : CanonicalPath, current[path]? = previous[path]?) ∧
    between previous current = ⟨c.deleted, c.modified, c.added, c.unchanged⟩ ∧
    ∀ visited visitedBefore, visited.Perm current.toList → visitedBefore.Perm previous.toList →
      visiting visited visitedBefore current previous = c :=
  ⟨fun _ => pairwise_lists current previous, disjoint_lists current previous, fun _ => mem_lists,
    fun _ => mem_added, fun _ => mem_modified, fun _ => mem_deleted, fun _ => mem_unchanged,
    isEmpty_iff, between_swap current previous, fun _ _ => visiting_perm⟩

theorem between_exact_backwards :
    let kept : CanonicalPath := ⟨true, [⟨"a.ts", by decide⟩]⟩
    let fresh : CanonicalPath := ⟨true, [⟨"b.ts", by decide⟩]⟩
    let gone : CanonicalPath := ⟨true, [⟨"c.ts", by decide⟩]⟩
    let hash := ContentHash.ofText
    let current : ContentHashes := .ofList [(kept, hash "one"), (fresh, hash "two")]
    let previous : ContentHashes := .ofList [(gone, hash "three"), (kept, hash "one")]
    let c := visiting current.toList.reverse previous.toList.reverse current previous
    current.toList.reverse.Perm current.toList ∧ previous.toList.reverse.Perm previous.toList ∧
      fresh ∈ c.added ∧ gone ∈ c.deleted ∧ kept ∈ c.unchanged := by
  intro kept fresh gone hash current previous c
  obtain ⟨-, -, -, hadded, -, hdeleted, hunchanged, -, -, hvisiting⟩ :=
    between_exact current previous
  have hc : c = between current previous :=
    hvisiting _ _ (List.reverse_perm _) (List.reverse_perm _)
  refine ⟨List.reverse_perm _, List.reverse_perm _, ?_, ?_, ?_⟩
  · rw [hc]
    exact (hadded fresh).mpr (by decide +kernel)
  · rw [hc]
    exact (hdeleted gone).mpr (by decide +kernel)
  · rw [hc]
    exact (hunchanged kept).mpr ⟨hash "one", by decide +kernel, by decide +kernel⟩

end ChangeSet

end Rebuild
