import Mathlib.Data.List.Find
import Mathlib.Data.List.Induction
import Rebuild.Host.Outputs
import Rebuild.Proofs.Disk.Follow
import Rebuild.Proofs.Output.Key

/-!
# Written outputs

A write stores its bytes under the key of the path that is written to, and
under the key of the real source if the source lies behind a link. Nothing
else changes. A copy is stored whether or not its key is taken, so after a
series of writes the bytes under a key are those of the last write that has
stored there, be it as its own output or as a copy.
-/

set_option autoImplicit false

namespace Rebuild

namespace OutputPlace

open CanonicalPath

variable (w : OutputPlace) (disk : Disk)

def ownKey (path : Path) : CanonicalPath := w.currentDir.join path

def copyKey? (path : Path) : Option CanonicalPath := w.realOutput? disk (w.ownKey path)

def Stores (path : Path) (k : CanonicalPath) : Prop :=
  w.ownKey path = k ∨ w.copyKey? disk path = some k

instance (path : Path) (k : CanonicalPath) : Decidable (w.Stores disk path k) :=
  inferInstanceAs (Decidable (_ ∨ _))

theorem write_getElem? (outputs : Outputs) (path : Path) (data : ByteArray) (k : CanonicalPath) :
    (w.write disk outputs path data)[k]? =
      if w.Stores disk path k then some data else outputs[k]? := by
  have hinsert (kept : Outputs) (key : CanonicalPath) :
      (kept.insert key data)[k]? = if key = k then some data else kept[k]? := by
    simp only [Std.TreeMap.getElem?_insert, Std.LawfulEqCmp.compare_eq_iff_eq]
  cases hcopy : w.copyKey? disk path with
  | none =>
    have hwrite : w.write disk outputs path data = outputs.insert (w.ownKey path) data := by
      rw [copyKey?, ownKey] at hcopy
      simp only [write, hcopy, ownKey]
    simp only [hwrite, hinsert, Stores, hcopy, reduceCtorEq, or_false]
  | some real =>
    have hwrite : w.write disk outputs path data =
        (outputs.insert real data).insert (w.ownKey path) data := by
      rw [copyKey?, ownKey] at hcopy
      simp only [write, hcopy, ownKey]
    simp only [hwrite, hinsert, Stores, hcopy, Option.some.injEq]
    by_cases hown : w.ownKey path = k <;> simp [hown]

variable {w disk} {path : Path} {names : List Name} {n : Name} {place : List Name}

theorem realSource?_name {dir : CanonicalPath}
    (h : disk.follow dir.toPath = .ok (Disk.pathTo place)) :
    w.realSource? disk ⟨dir.rooted, dir.names ++ [n]⟩ =
      if (⟨true, place ++ [n]⟩ : CanonicalPath) = ⟨dir.rooted, dir.names ++ [n]⟩ then none
      else some ⟨true, place ++ [n]⟩ := by
  have hname : fileName? ⟨dir.rooted, dir.names ++ [n]⟩ = some n := List.getLast?_concat
  have hparent : parent? ⟨dir.rooted, dir.names ++ [n]⟩ = some dir := by
    simp [parent?]
  have hreal : w.currentDir.join ((Disk.pathTo place).join ⟨n.text⟩) = ⟨true, place ++ [n]⟩ := by
    rw [Disk.pathTo, toPath_join_name, join_toPath, if_pos rfl]
  rw [realSource?]
  simp only [hname, hparent, h, hreal]

/-- What the output of a source below the root is stored under: its own key, and the output of
the real source. -/
theorem stores_below
    (hown : w.ownKey path = ⟨w.map.out.rooted, w.map.out.names ++ (names ++ [n])⟩)
    (hfollow : disk.follow (toPath ⟨w.map.root.rooted, w.map.root.names ++ names⟩) =
      .ok (Disk.pathTo place)) (k : CanonicalPath) :
    w.Stores disk path k ↔ k = w.ownKey path ∨ k = w.map.toOutput ⟨true, place ++ [n]⟩ := by
  have hsource : w.map.toSource (w.ownKey path) =
      ⟨w.map.root.rooted, w.map.root.names ++ names ++ [n]⟩ := by
    rw [hown, OutputMap.toSource_below, List.append_assoc]
  have hcopy : w.copyKey? disk path =
      if (⟨true, place ++ [n]⟩ : CanonicalPath) =
          ⟨w.map.root.rooted, w.map.root.names ++ names ++ [n]⟩ then none
      else some (w.map.toOutput ⟨true, place ++ [n]⟩) := by
    rw [copyKey?, realOutput?, hsource, realSource?_name hfollow]
    split <;> rfl
  by_cases hreal : (⟨true, place ++ [n]⟩ : CanonicalPath) =
      ⟨w.map.root.rooted, w.map.root.names ++ names ++ [n]⟩
  · -- The source is real, and its output is the key already.
    have hsame : w.map.toOutput ⟨true, place ++ [n]⟩ = w.ownKey path := by
      rw [hreal, List.append_assoc, OutputMap.toOutput_below, hown]
    rw [Stores, hcopy, if_pos hreal, hsame]
    simp [eq_comm]
  · rw [Stores, hcopy, if_neg hreal]
    simp [eq_comm]

def apart : OutputPlace := ⟨⟨true, []⟩, ⟨true, []⟩, ⟨true, [⟨"out", by decide⟩]⟩⟩

theorem apart_stores {path : Path} {n : Name}
    (h : apart.ownKey path = ⟨true, [⟨"out", by decide⟩, ⟨"alias", by decide⟩, n]⟩)
    (k : CanonicalPath) :
    apart.Stores Disk.twoViews path k ↔
      k = ⟨true, [⟨"out", by decide⟩, ⟨"alias", by decide⟩, n]⟩ ∨
        k = ⟨true, [⟨"out", by decide⟩, ⟨"real", by decide⟩, n]⟩ := by
  have hview : apart.map.toOutput ⟨true, [⟨"real", by decide⟩] ++ [n]⟩ =
      ⟨true, [⟨"out", by decide⟩, ⟨"real", by decide⟩, n]⟩ :=
    apart.map.toOutput_below [⟨"real", by decide⟩, n]
  have hown : apart.ownKey path =
      ⟨apart.map.out.rooted, apart.map.out.names ++ ([⟨"alias", by decide⟩] ++ [n])⟩ := h
  rw [← hview, ← h]
  exact stores_below hown Disk.twoViews_follow k

theorem writeAll_append (outputs : Outputs) (first second : List (Path × ByteArray)) :
    w.writeAll disk outputs (first ++ second) =
      w.writeAll disk (w.writeAll disk outputs first) second := by
  simp only [writeAll, List.foldl_append]

theorem writeAll_concat (outputs : Outputs) (writes : List (Path × ByteArray))
    (f : Path × ByteArray) :
    w.writeAll disk outputs (writes ++ [f]) =
      w.write disk (w.writeAll disk outputs writes) f.1 f.2 := by
  rw [writeAll_append]
  simp only [writeAll, List.foldl_cons, List.foldl_nil]

theorem writeAll_getElem? (outputs : Outputs) (writes : List (Path × ByteArray))
    (k : CanonicalPath) :
    (w.writeAll disk outputs writes)[k]? =
      match writes.reverse.find? (fun f => w.Stores disk f.1 k) with
      | some f => some f.2
      | none => outputs[k]? := by
  induction writes using List.reverseRecOn with
  | nil => rfl
  | append_singleton writes f ih =>
    rw [writeAll_concat, write_getElem?, ih, List.reverse_concat, List.find?_cons]
    by_cases hstores : w.Stores disk f.1 k <;> simp [hstores]

/-- The bytes under a key that was written to are those of the last write to it, unless a later
write has stored its copy there. Then they are those of the last such write. -/
theorem last_write_or_copy (w : OutputPlace) (disk : Disk) (outputs : Outputs)
    (before after : List (Path × ByteArray)) (path : Path) (data : ByteArray) (k : CanonicalPath)
    (hown : w.ownKey path = k) (hlast : ∀ f ∈ after, w.ownKey f.1 ≠ k) :
    (w.writeAll disk outputs (before ++ (path, data) :: after))[k]? =
      match after.reverse.find? (fun f => w.copyKey? disk f.1 = some k) with
      | some f => some f.2
      | none => some data := by
  have hstores : w.Stores disk path k := Or.inl hown
  have hlater : after.reverse.find? (fun f => w.Stores disk f.1 k) =
      after.reverse.find? (fun f => w.copyKey? disk f.1 = some k) := by
    apply List.find?_congr
    intro f hf
    have hne : w.ownKey f.1 ≠ k := hlast f (List.mem_reverse.mp hf)
    simp [Stores, hne]
  have hback : (before ++ (path, data) :: after).reverse =
      after.reverse ++ (path, data) :: before.reverse := by simp
  rw [writeAll_getElem?, hback, List.find?_append, hlater, List.find?_cons]
  cases after.reverse.find? (fun f => w.copyKey? disk f.1 = some k) <;> simp [hstores]

theorem last_write_or_copy_apart :
    let k : CanonicalPath :=
      ⟨true, [⟨"out", by decide⟩, ⟨"real", by decide⟩, ⟨"a.js", by decide⟩]⟩
    apart.ownKey ⟨"out/real/a.js"⟩ = k ∧ apart.ownKey ⟨"out/alias/b.js"⟩ ≠ k ∧
      (apart.writeAll Disk.twoViews ∅ [(⟨"out/alias/a.js"⟩, "x".toUTF8),
        (⟨"out/real/a.js"⟩, "y".toUTF8), (⟨"out/alias/b.js"⟩, "z".toUTF8)])[k]? =
        some "y".toUTF8 := by
  intro k
  have hown : apart.ownKey ⟨"out/real/a.js"⟩ = k := by decide
  have hother : apart.ownKey ⟨"out/alias/b.js"⟩ =
      ⟨true, [⟨"out", by decide⟩, ⟨"alias", by decide⟩, ⟨"b.js", by decide⟩]⟩ := by decide
  have hne : apart.ownKey ⟨"out/alias/b.js"⟩ ≠ k := by
    rw [hother]
    decide
  have hcopy : apart.copyKey? Disk.twoViews ⟨"out/alias/b.js"⟩ ≠ some k := by
    intro hcopy
    have hstores := (apart_stores hother k).mp (Or.inr hcopy)
    revert hstores
    decide
  have hlast := last_write_or_copy apart Disk.twoViews ∅ [(⟨"out/alias/a.js"⟩, "x".toUTF8)]
    [(⟨"out/alias/b.js"⟩, "z".toUTF8)] ⟨"out/real/a.js"⟩ "y".toUTF8 k hown (by simpa using hne)
  refine ⟨hown, hne, hlast.trans ?_⟩
  simp [hcopy]

/-- The output of a real file is lost to the copy of an output that is written later. -/
theorem copy_replaces_output :
    let k : CanonicalPath :=
      ⟨true, [⟨"out", by decide⟩, ⟨"real", by decide⟩, ⟨"a.js", by decide⟩]⟩
    let outputs := apart.writeAll Disk.twoViews ∅
      [(⟨"out/real/a.js"⟩, "y".toUTF8), (⟨"out/alias/a.js"⟩, "x".toUTF8)]
    apart.ownKey ⟨"out/real/a.js"⟩ = k ∧ apart.ownKey ⟨"out/alias/a.js"⟩ ≠ k ∧
      outputs[k]? = some "x".toUTF8 ∧ outputs[k]? ≠ some "y".toUTF8 := by
  intro k outputs
  have hreal : apart.ownKey ⟨"out/real/a.js"⟩ = k := by decide
  have halias : apart.ownKey ⟨"out/alias/a.js"⟩ =
      ⟨true, [⟨"out", by decide⟩, ⟨"alias", by decide⟩, ⟨"a.js", by decide⟩]⟩ := by decide
  have hcopy : apart.Stores Disk.twoViews ⟨"out/alias/a.js"⟩ k :=
    (apart_stores halias k).mpr (Or.inr rfl)
  have hx : outputs[k]? = some "x".toUTF8 := by
    refine (writeAll_getElem? ∅ [(⟨"out/real/a.js"⟩, "y".toUTF8),
      (⟨"out/alias/a.js"⟩, "x".toUTF8)] k).trans ?_
    simp [hcopy]
  refine ⟨hreal, ?_, hx, ?_⟩
  · rw [halias]
    decide
  · rw [hx]
    decide

end OutputPlace

end Rebuild
