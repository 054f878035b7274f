import Rebuild.Proofs.Output.Key

/-!
# Sources that share a key

The key of a source keeps its directory and the stem of its name. So two
sources below the root share a key if they differ in their extensions only,
and both extensions give way to the same one. A name without an extension
stands for itself, and its key is shared with no other source.
-/

set_option autoImplicit false

namespace Rebuild

namespace Name

theorem stemAndExtension_swapped (n : Name) {ext : List Char} (hne : ext ≠ []) (hdot : '.' ∉ ext) :
    Path.stemAndExtension (String.ofList (n.swapped ext)) =
      ((Path.stemAndExtension n.text).1,
        (Path.stemAndExtension n.text).2.map fun _ => String.ofList ext) := by
  rcases n.swapped_cases with ⟨hnone, hkeep⟩ | ⟨stem, old, hstem, -, -, hsplit, hswap⟩
  · have hsame : String.ofList (n.swapped ext) = n.text := by
      rw [hkeep, chars, String.ofList_toList]
    rw [hsame, hnone]
    exact Prod.ext rfl hnone
  · obtain ⟨c, cs, rfl⟩ := List.exists_cons_of_ne_nil hstem
    rw [hsplit, hswap, if_neg hne, Path.stemAndExtension, String.toList_ofList,
      Path.splitLastDot_append (c :: cs) hdot]
    rfl

theorem swapped_of_extension (n : Name) (hext : (Path.stemAndExtension n.text).2.isSome = true)
    {ext : List Char} (hne : ext ≠ []) :
    n.swapped ext = (Path.stemAndExtension n.text).1.toList ++ '.' :: ext := by
  rcases n.swapped_cases with ⟨hnone, -⟩ | ⟨stem, old, -, -, -, hsplit, hswap⟩
  · rw [hnone] at hext
    cases hext
  · rw [hswap, if_neg hne, hsplit, String.toList_ofList]

theorem stem_of_no_extension (n : Name) (hext : (Path.stemAndExtension n.text).2 = none) :
    (Path.stemAndExtension n.text).1 = n.text := by
  rw [Path.stemAndExtension] at hext ⊢
  split at hext
  · rfl
  · rfl
  · cases hext

theorem outputChars_eq_iff (n m : Name) (preserveJsx : Bool) :
    n.outputChars preserveJsx = m.outputChars preserveJsx ↔
      n = m ∨ (Path.stemAndExtension n.text).2.isSome = true ∧
        (Path.stemAndExtension m.text).2.isSome = true ∧
        (Path.stemAndExtension n.text).1 = (Path.stemAndExtension m.text).1 ∧
        (FileKind.ofName n.text).outputExtension preserveJsx =
          (FileKind.ofName m.text).outputExtension preserveJsx := by
  have hsplit (k : Name) := k.stemAndExtension_swapped
    (FileKind.outputExtension_ne_nil (FileKind.ofName k.text) preserveJsx)
    (FileKind.dot_not_mem_outputExtension (FileKind.ofName k.text) preserveJsx)
  constructor
  · intro hsame
    have hparts := congrArg (fun cs => Path.stemAndExtension (String.ofList cs)) hsame
    simp only [outputChars, hsplit, Prod.mk.injEq, String.ofList_toList] at hparts
    obtain ⟨hstem, hext⟩ := hparts
    cases hn : (Path.stemAndExtension n.text).2 with
    | none =>
      cases hm : (Path.stemAndExtension m.text).2 with
      | none =>
        rw [n.stem_of_no_extension hn, m.stem_of_no_extension hm] at hstem
        exact Or.inl (text_injective hstem)
      | some old =>
        rw [hn, hm] at hext
        cases hext
    | some old =>
      cases hm : (Path.stemAndExtension m.text).2 with
      | none =>
        rw [hn, hm] at hext
        cases hext
      | some old' =>
        rw [hn, hm] at hext
        exact Or.inr ⟨rfl, rfl, hstem, Option.some.inj hext⟩
  · rintro (rfl | ⟨hn, hm, hstem, hext⟩)
    · rfl
    · rw [outputChars, outputChars, hext,
        n.swapped_of_extension hn (FileKind.outputExtension_ne_nil _ _),
        m.swapped_of_extension hm (FileKind.outputExtension_ne_nil _ _), hstem]

end Name

namespace CanonicalPath

theorem Below.exists_last {p dir : CanonicalPath} (h : p.Below dir) :
    ∃ front n, p = ⟨dir.rooted, dir.names ++ front ++ [n]⟩ := by
  obtain ⟨names, hnames, rfl⟩ := h
  obtain ⟨front, n, rfl⟩ := (List.eq_nil_or_concat' names).resolve_left hnames
  exact ⟨front, n, by rw [List.append_assoc]⟩

theorem below_eq_iff (dir : CanonicalPath) (front front' : List Name) (n n' : Name) :
    (⟨dir.rooted, dir.names ++ front ++ [n]⟩ : CanonicalPath) =
      ⟨dir.rooted, dir.names ++ front' ++ [n']⟩ ↔ front = front' ∧ n = n' := by
  constructor
  · intro h
    obtain ⟨hfront, hlast⟩ := List.append_inj' (congrArg names h) rfl
    exact ⟨List.append_cancel_left hfront, List.singleton_inj.mp hlast⟩
  · rintro ⟨rfl, rfl⟩
    rfl

end CanonicalPath

namespace OutputMap

open CanonicalPath

theorem exists_outputKey (map : OutputMap) (front : List Name) {n : Name} (hn : ¬n.Climbs)
    (preserveJsx : Bool) :
    ∃ m : Name, m.chars = n.outputChars preserveJsx ∧
      map.outputKey ⟨map.root.rooted, map.root.names ++ front ++ [n]⟩ preserveJsx =
        ⟨map.out.rooted, map.out.names ++ front ++ [m]⟩ := by
  obtain ⟨m, hm, hkey⟩ := exists_outputName preserveJsx fun hlost => hn hlost.climbs
  refine ⟨m, hm, ?_⟩
  rw [hkey, List.append_assoc, toOutput_below, List.append_assoc]

/-- The key of a source below the root lies below the output directory. Two sources share a key
exactly if they are the same, or lie in one directory with names that have equal stems and
extensions that give way to the same one. -/
theorem outputKey_eq_iff (map : OutputMap) (preserveJsx : Bool) (p q : CanonicalPath)
    (hp : p.Below map.root) (hq : q.Below map.root)
    (hpname : ∀ n, p.fileName? = some n → ¬n.Climbs)
    (hqname : ∀ n, q.fileName? = some n → ¬n.Climbs) :
    (map.outputKey p preserveJsx).Below map.out ∧
    (map.outputKey p preserveJsx = map.outputKey q preserveJsx ↔
      p = q ∨ p.parent? = q.parent? ∧
        p.toPath.extension?.isSome = true ∧ q.toPath.extension?.isSome = true ∧
        p.toPath.fileStem? = q.toPath.fileStem? ∧
        (FileKind.ofCanonical p).outputExtension preserveJsx =
          (FileKind.ofCanonical q).outputExtension preserveJsx) := by
  obtain ⟨front, n, rfl⟩ := hp.exists_last
  obtain ⟨front', n', rfl⟩ := hq.exists_last
  obtain ⟨m, hm, hkey⟩ :=
    map.exists_outputKey front (hpname n (List.getLast?_concat ..)) preserveJsx
  obtain ⟨m', hm', hkey'⟩ :=
    map.exists_outputKey front' (hqname n' (List.getLast?_concat ..)) preserveJsx
  have hnames : m = m' ↔ n.outputChars preserveJsx = n'.outputChars preserveJsx := by
    rw [← hm, ← hm']
    exact ⟨congrArg Name.chars, fun h => Name.text_injective (String.toList_inj.mp h)⟩
  rw [hkey, hkey']
  constructor
  · exact ⟨front ++ [m], by simp, by rw [List.append_assoc]⟩
  · have hparent (names : List Name) (k : Name) :
        parent? ⟨map.root.rooted, map.root.names ++ names ++ [k]⟩ =
          some ⟨map.root.rooted, map.root.names ++ names⟩ := by
      simp [parent?]
    rw [below_eq_iff, below_eq_iff, hnames, Name.outputChars_eq_iff, hparent, hparent]
    simp only [extension?_toPath, fileStem?_toPath, FileKind.ofCanonical_name, Option.some.injEq,
      CanonicalPath.mk.injEq, List.append_cancel_left_eq, true_and]
    exact and_or_left

/-- Preserved markup has a key of its own, while a name that ends in a dot gets the extension of
any script. -/
theorem outputKey_eq_iff_dotted :
    let map : OutputMap := ⟨⟨true, [⟨"src", by decide⟩]⟩, ⟨true, [⟨"out", by decide⟩]⟩⟩
    let p : CanonicalPath := ⟨true, [⟨"src", by decide⟩, ⟨"a.ts", by decide⟩]⟩
    let q : CanonicalPath := ⟨true, [⟨"src", by decide⟩, ⟨"a.", by decide⟩]⟩
    let r : CanonicalPath := ⟨true, [⟨"src", by decide⟩, ⟨"a.tsx", by decide⟩]⟩
    p.Below map.root ∧ q.Below map.root ∧ r.Below map.root ∧
      (∀ n, p.fileName? = some n → ¬n.Climbs) ∧ (∀ n, q.fileName? = some n → ¬n.Climbs) ∧
      (∀ n, r.fileName? = some n → ¬n.Climbs) ∧
      map.outputKey p true = map.outputKey q true ∧
      map.outputKey p true ≠ map.outputKey r true := by
  intro map p q r
  have hp : p.Below map.root := ⟨[⟨"a.ts", by decide⟩], by decide, rfl⟩
  have hq : q.Below map.root := ⟨[⟨"a.", by decide⟩], by decide, rfl⟩
  have hr : r.Below map.root := ⟨[⟨"a.tsx", by decide⟩], by decide, rfl⟩
  have hname (n m : Name) (hm : ¬m.Climbs) (h : some m = some n) : ¬n.Climbs :=
    Option.some.inj h ▸ hm
  have hpname : ∀ n, p.fileName? = some n → ¬n.Climbs := fun n => hname n _ (by decide)
  have hqname : ∀ n, q.fileName? = some n → ¬n.Climbs := fun n => hname n _ (by decide)
  have hrname : ∀ n, r.fileName? = some n → ¬n.Climbs := fun n => hname n _ (by decide)
  exact ⟨hp, hq, hr, hpname, hqname, hrname,
    (outputKey_eq_iff map true p q hp hq hpname hqname).2.mpr (by decide +kernel),
    mt (outputKey_eq_iff map true p r hp hr hpname hrname).2.mp (by decide +kernel)⟩

end OutputMap

end Rebuild
