import Rebuild.Proofs.Output.Key
import Rebuild.Proofs.Path.Climbing

/-!
# There and back

A source is moved by the steps that lead to it from the root, and moved back by
the steps that lead to its output from the output directory. The way back is
shorter if the output happens to lie where the first way has climbed over, and
then it ends elsewhere. It also ends elsewhere if the first way was held up at
the anchor.
-/

set_option autoImplicit false

namespace Rebuild

/-! ## What two lists share -/

theorem apart_iff_head? {α : Type} (as bs : List α) :
    Apart as bs ↔ as.head? = none ∨ bs.head? = none ∨ bs.head? ≠ as.head? := by
  cases as with
  | nil => simp [Apart]
  | cons a as =>
    cases bs with
    | nil => simp [Apart]
    | cons b bs => simp [Apart, eq_comm]

theorem apart_append_iff {α : Type} {shared as bs : List α} (hapart : Apart as bs) :
    Apart (shared ++ as) (shared ++ bs) ↔ shared = [] := by
  cases shared with
  | nil => simp [hapart]
  | cons a shared => simp [Apart]

theorem take_eq_iff_of_apart {α : Type} {above shared below : List α}
    (hapart : Apart above (shared ++ below)) (hlength : shared.length ≤ above.length) :
    above.take shared.length = shared ↔ shared = [] := by
  cases shared with
  | nil => simp
  | cons b shared =>
    cases above with
    | nil => simp at hlength
    | cons a above =>
      have hab : a ≠ b := hapart a rfl b rfl
      simp [hab]

namespace OutputMap

open CanonicalPath

variable {above below : List Name}

theorem toOutput_apart (hapart : Apart above below) (shared out : List Name) :
    toOutput ⟨⟨true, shared ++ above⟩, ⟨true, out⟩⟩ ⟨true, shared ++ below⟩ =
      ⟨true, out.take (out.length - above.length) ++ below⟩ := by
  change join ⟨true, out⟩ (relativeTo ⟨true, shared ++ below⟩ ⟨true, shared ++ above⟩) = _
  rw [relativeTo_apart hapart, join_steps]

theorem toSource_apart (hapart : Apart above below) (shared root : List Name) :
    toSource ⟨⟨true, root⟩, ⟨true, shared ++ above⟩⟩ ⟨true, shared ++ below⟩ =
      ⟨true, root.take (root.length - above.length) ++ below⟩ := by
  rw [toSource, relativeTo_apart hapart, join_steps]

/-- Where the climb is not held up, the way back is the same if it goes over all that the output
directory has below the place that the climb has reached. -/
theorem toSource_toOutput_reached (hapart : Apart above below) (shared kept : List Name)
    {left : List Name} (hleft : left.length = above.length) :
    let map : OutputMap := ⟨⟨true, shared ++ above⟩, ⟨true, kept ++ left⟩⟩
    map.toSource (map.toOutput ⟨true, shared ++ below⟩) = ⟨true, shared ++ below⟩ ↔
      Apart left below := by
  intro map
  obtain ⟨common, left', below', rfl, rfl, hrest⟩ := exists_apart left below
  have hoverall : above.length = common.length + left'.length := by
    rw [← hleft, List.length_append]
  have houtput : map.toOutput ⟨true, shared ++ (common ++ below')⟩ =
      ⟨true, (kept ++ common) ++ below'⟩ := by
    rw [toOutput_apart hapart, ← hleft, List.length_append, Nat.add_sub_cancel, List.take_left,
      List.append_assoc]
  have hsource : map.toSource ⟨true, (kept ++ common) ++ below'⟩ =
      ⟨true, shared ++ (above.take common.length ++ below')⟩ := by
    have hback := toSource_apart hrest (kept ++ common) (shared ++ above)
    have hclimb : (shared ++ above).length - left'.length = shared.length + common.length := by
      rw [List.length_append]
      omega
    rw [hclimb, List.take_length_add_append, List.append_assoc kept common left',
      List.append_assoc shared] at hback
    exact hback
  have hcut := take_eq_iff_of_apart hapart (by omega)
  rw [houtput, hsource, apart_append_iff hrest, ← hcut]
  simp

/-- A climb that is held up at the anchor leads back to a longer path. -/
theorem toSource_toOutput_held (hapart : Apart above below) (shared : List Name) {out : List Name}
    (hout : out.length < above.length) :
    let map : OutputMap := ⟨⟨true, shared ++ above⟩, ⟨true, out⟩⟩
    map.toSource (map.toOutput ⟨true, shared ++ below⟩) ≠ ⟨true, shared ++ below⟩ := by
  intro map
  obtain ⟨common, out', below', rfl, rfl, hrest⟩ := exists_apart out below
  rw [List.length_append] at hout
  have houtput : map.toOutput ⟨true, shared ++ (common ++ below')⟩ =
      ⟨true, common ++ below'⟩ := by
    have hnone : (common ++ out').length - above.length = 0 := by
      rw [List.length_append]
      omega
    rw [toOutput_apart hapart, hnone, List.take_zero, List.nil_append]
  rw [houtput, toSource_apart hrest]
  intro hsame
  have hlength := congrArg (fun p => p.names.length) hsame
  simp only [List.length_append, List.length_take] at hlength
  omega

theorem toSource_toOutput_apart (hapart : Apart above below) (shared out : List Name) :
    let map : OutputMap := ⟨⟨true, shared ++ above⟩, ⟨true, out⟩⟩
    map.toSource (map.toOutput ⟨true, shared ++ below⟩) = ⟨true, shared ++ below⟩ ↔
      above.length ≤ out.length ∧ Apart (out.drop (out.length - above.length)) below := by
  intro map
  rcases Nat.lt_or_ge out.length above.length with hheld | hreached
  · have hback := toSource_toOutput_held hapart shared hheld
    exact ⟨fun hsame => absurd hsame hback, fun h => absurd h.1 (Nat.not_le.mpr hheld)⟩
  · have hleft : (out.drop (out.length - above.length)).length = above.length := by
      rw [List.length_drop]
      omega
    have hback := toSource_toOutput_reached hapart shared
      (out.take (out.length - above.length)) hleft
    rw [List.take_append_drop] at hback
    exact hback.trans ⟨fun h => ⟨hreached, h⟩, fun h => h.2⟩

/-- There and back is the same path exactly if the climb to the last directory that the path shares
with the root has room below the anchor, and the output does not go down again into what was
climbed over. So it is for all that is at the root or below it. -/
theorem toSource_toOutput_eq_iff (map : OutputMap) (p : CanonicalPath)
    (hroot : map.root.rooted = true) (hout : map.out.rooted = true) (hp : p.rooted = true) :
    let s := map.root.sharedDepth p
    let u := map.root.depth - s
    let o := map.out.depth
    (map.toSource (map.toOutput p) = p ↔
      u ≤ o ∧ (u = 0 ∨ p.names[s]? = none ∨ p.names[s]? ≠ map.out.names[o - u]?)) ∧
    (map.root.names <+: p.names → map.toSource (map.toOutput p) = p) := by
  obtain ⟨⟨rooted, root⟩, ⟨rooted', out⟩⟩ := map
  obtain ⟨rooted'', names⟩ := p
  obtain rfl : rooted = true := hroot
  obtain rfl : rooted' = true := hout
  obtain rfl : rooted'' = true := hp
  obtain ⟨shared, above, below, rfl, rfl, hapart⟩ := exists_apart root names
  intro s u o
  constructor
  · have hs : s = shared.length := sharedDepth_apart hapart rfl rfl
    have hu : u = above.length := by
      rw [show u = (shared ++ above).length - s from rfl, hs, List.length_append,
        Nat.add_sub_cancel_left]
    have hnext : (shared ++ below)[s]? = below.head? := by
      rw [hs, List.getElem?_append_right (Nat.le_refl _), Nat.sub_self, List.head?_eq_getElem?]
    have hplace : out[o - u]? = (out.drop (out.length - above.length)).head? := by
      rw [hu, List.head?_drop]
      rfl
    refine (toSource_toOutput_apart hapart shared out).trans ?_
    rw [apart_iff_head?, hnext, hplace, hu]
    refine and_congr_right fun hroom => or_congr_left ?_
    rw [List.head?_eq_none_iff, List.drop_eq_nil_iff]
    have hroom' : above.length ≤ out.length := hroom
    omega
  · rintro ⟨rest, hrest⟩
    have hbelow : (⟨true, shared ++ below⟩ : CanonicalPath) = ⟨true, (shared ++ above) ++ rest⟩ :=
      congrArg (CanonicalPath.mk true) hrest.symm
    have hthere := toOutput_below ⟨⟨true, shared ++ above⟩, ⟨true, out⟩⟩ rest
    have hback := toSource_below ⟨⟨true, shared ++ above⟩, ⟨true, out⟩⟩ rest
    rw [hbelow, hthere, hback]

/-- A file in the output directory beside the root is taken for one in the root. -/
theorem toSource_toOutput_eq_iff_beside :
    let map : OutputMap :=
      ⟨⟨true, [⟨"w", by decide⟩, ⟨"src", by decide⟩]⟩,
        ⟨true, [⟨"w", by decide⟩, ⟨"lib", by decide⟩]⟩⟩
    let p : CanonicalPath := ⟨true, [⟨"w", by decide⟩, ⟨"lib", by decide⟩, ⟨"a.ts", by decide⟩]⟩
    let q : CanonicalPath := ⟨true, [⟨"w", by decide⟩, ⟨"test", by decide⟩, ⟨"a.ts", by decide⟩]⟩
    map.root.rooted = true ∧ map.out.rooted = true ∧ p.rooted = true ∧ q.rooted = true ∧
      map.toSource (map.toOutput p) ≠ p ∧ map.toSource (map.toOutput q) = q := by
  intro map p q
  exact ⟨rfl, rfl, rfl, rfl, mt (toSource_toOutput_eq_iff map p rfl rfl rfl).1.mp (by decide),
    (toSource_toOutput_eq_iff map q rfl rfl rfl).1.mpr (by decide)⟩

end OutputMap

end Rebuild
