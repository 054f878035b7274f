import Rebuild.Proofs.Output.Sharing
import Rebuild.Proofs.Path.Climbing
import Rebuild.Proofs.Path.Editing

/-!
# Names of compiled outputs

A file is compiled for the ending of its name, in any letter case, and its
output is named by the extension of a path. Where something other than a dot
stands in front of the ending, the two are the same part of the name, and the
output is a script. A name that is an ending and nothing else has no
extension, so it is kept. One with only a dot in front of the ending is lost.
-/

set_option autoImplicit false

namespace Rebuild

/-! ## Endings -/

namespace FileKind

def sourceEndings : List (List Char) :=
  [['.', 't', 's'], ['.', 't', 's', 'x'], ['.', 'j', 's'], ['.', 'j', 's', 'x']]

def IsSource (kind : FileKind) : Prop := kind = .typeScript ∨ kind = .tsx ∨ kind = .javaScript

instance (kind : FileKind) : Decidable kind.IsSource := by
  unfold IsSource
  infer_instance

def scriptExtension (kind : FileKind) (preserveJsx : Bool) : List Char :=
  if kind = .tsx ∧ preserveJsx = true then ['j', 's', 'x'] else ['j', 's']

theorem outputExtension_chars (kind : FileKind) (preserveJsx : Bool) :
    (kind.outputExtension preserveJsx).toList = kind.scriptExtension preserveJsx := by
  cases kind <;> cases preserveJsx <;> rfl

theorem scriptExtension_ne_nil (kind : FileKind) (preserveJsx : Bool) :
    kind.scriptExtension preserveJsx ≠ [] := by
  rw [← outputExtension_chars]
  exact outputExtension_ne_nil kind preserveJsx

theorem toLower_eq_dot {c : Char} (h : c.toLower = '.') : c = '.' := by
  unfold Char.toLower at h
  split at h
  · rename_i hupper
    have hval : c.val + 32 = 46 := congrArg Char.val h
    have hlow : 65 ≤ c.val := hupper.1
    have hhigh : c.val ≤ 90 := hupper.2
    exfalso
    grind
  · exact h

theorem exists_ending {cs e : List Char} (h : endsWith (cs.map Char.toLower) e = true) :
    ∃ stem ending, cs = stem ++ ending ∧ ending.map Char.toLower = e := by
  obtain ⟨front, hfront⟩ := List.isSuffixOf_iff_suffix.mp h
  obtain ⟨stem, ending, hcs, -, hending⟩ := List.map_eq_append_iff.mp hfront.symm
  exact ⟨stem, ending, hcs, hending⟩

theorem exists_extension {ending : List Char} (h : ending.map Char.toLower ∈ sourceEndings) :
    ∃ ext, '.' ∉ ext ∧ ending = '.' :: ext := by
  have hlower : ∀ e ∈ sourceEndings, e.head? = some '.' ∧ '.' ∉ e.tail := by decide
  obtain ⟨hhead, htail⟩ := hlower _ h
  cases ending with
  | nil => cases hhead
  | cons c ext =>
    obtain rfl : c = '.' := toLower_eq_dot (Option.some.inj hhead)
    exact ⟨ext, fun hdot => htail (List.mem_map.mpr ⟨'.', hdot, rfl⟩), rfl⟩

end FileKind

namespace Name

open FileKind

def SourceStem (n : Name) (stem : List Char) : Prop :=
  ∃ ending, n.chars = stem ++ ending ∧ ending.map Char.toLower ∈ sourceEndings

theorem exists_sourceStem {n : Name} (h : (FileKind.ofName n.text).IsSource) :
    ∃ stem, n.SourceStem stem := by
  by_contra hnone
  have hno (e : List Char) (he : e ∈ sourceEndings) :
      endsWith (n.chars.map Char.toLower) e = false := by
    rw [Bool.eq_false_iff]
    intro hend
    obtain ⟨stem, ending, hchars, rfl⟩ := exists_ending hend
    exact hnone ⟨stem, ending, hchars, he⟩
  rw [FileKind.ofName, toList_text, hno ['.', 't', 's', 'x'] (by decide),
    hno ['.', 't', 's'] (by decide), hno ['.', 'j', 's'] (by decide),
    hno ['.', 'j', 's', 'x'] (by decide)] at h
  split at h <;> exact absurd h (by decide)

variable {n m : Name} {stem : List Char}

theorem SourceStem.splitLastDot (h : n.SourceStem stem) :
    ∃ ext, '.' ∉ ext ∧ n.chars = stem ++ '.' :: ext ∧
      Path.splitLastDot n.chars = some (stem, ext) := by
  obtain ⟨ending, hchars, hending⟩ := h
  obtain ⟨ext, hext, rfl⟩ := exists_extension hending
  exact ⟨ext, hext, hchars, by rw [hchars, Path.splitLastDot_append stem hext]⟩

theorem SourceStem.unique {other : List Char} (h : n.SourceStem stem) (h' : n.SourceStem other) :
    stem = other := by
  obtain ⟨_, _, _, hsplit⟩ := h.splitLastDot
  obtain ⟨_, _, _, hsplit'⟩ := h'.splitLastDot
  rw [hsplit] at hsplit'
  exact congrArg Prod.fst (Option.some.inj hsplit')

theorem SourceStem.swapped_nil (h : n.SourceStem []) (ext : List Char) :
    n.swapped ext = n.chars := by
  obtain ⟨old, -, -, hsplit⟩ := h.splitLastDot
  rw [swapped, hsplit]

theorem SourceStem.swapped (h : n.SourceStem stem) (hstem : stem ≠ []) {ext : List Char}
    (hext : ext ≠ []) : n.swapped ext = stem ++ '.' :: ext := by
  obtain ⟨old, -, -, hsplit⟩ := h.splitLastDot
  obtain ⟨c, cs, rfl⟩ := List.exists_cons_of_ne_nil hstem
  rw [Name.swapped, hsplit]
  exact if_neg hext

theorem SourceStem.lostTo_iff (h : n.SourceStem stem) {ext : List Char} (hext : ext ≠ []) :
    n.LostTo ext ↔ stem = ['.'] := by
  obtain ⟨old, hold, hchars, hsplit⟩ := h.splitLastDot
  constructor
  · rintro ⟨rest, hrest, hlost | ⟨-, hnil⟩⟩
    · have hother := Path.splitLastDot_append ['.'] hrest
      rw [hlost] at hsplit
      exact congrArg Prod.fst (Option.some.inj (hsplit.symm.trans hother))
    · exact absurd hnil hext
  · rintro rfl
    exact ⟨old, hold, Or.inl hchars⟩

theorem SourceStem.exists_script (h : n.SourceStem stem) (kind : FileKind) (preserveJsx : Bool) :
    ∃ m : Name, m.chars = stem ++ '.' :: kind.scriptExtension preserveJsx := by
  obtain ⟨old, -, hchars, -⟩ := h.splitLastDot
  have hslash := n.not_mem_chars
  rw [hchars, List.mem_append, not_or] at hslash
  obtain ⟨hext, hlong⟩ : '/' ∉ '.' :: kind.scriptExtension preserveJsx ∧
      2 < ('.' :: kind.scriptExtension preserveJsx).length := by
    rw [scriptExtension]
    split <;> decide
  have hlength : 2 < (stem ++ '.' :: kind.scriptExtension preserveJsx).length := by
    rw [List.length_append]
    omega
  apply exists_chars
  · intro hnil
    simp [hnil] at hlength
  · intro hdot
    simp [hdot] at hlength
  · intro hdots
    simp [hdots] at hlength
  · exact List.mem_append.not.mpr (not_or.mpr ⟨hslash.1, hext⟩)

theorem ofName_script {kind : FileKind} {preserveJsx : Bool}
    (h : m.chars = stem ++ '.' :: kind.scriptExtension preserveJsx) :
    FileKind.ofName m.text = .javaScript := by
  rw [FileKind.ofName, toList_text, h, scriptExtension]
  split <;> simp [endsWith, List.isSuffixOf]

end Name

/-! ## Keys -/

namespace CanonicalPath

theorem relativeTo_climbing (dir : CanonicalPath) (names : List Name) :
    ((climbing ⟨dir.rooted, dir.names ++ names⟩).relativeTo dir.toPath).components =
      names.map .name ++ [.up] := by
  have hcomponents : (climbing ⟨dir.rooted, dir.names ++ names⟩).components =
      dir.components ++ (names.map .name ++ [.up]) := by
    simp [climbing_components, components]
  have hsteps : ∀ c ∈ names.map Component.name ++ [.up], c.IsStep := by
    intro c hc
    rcases List.mem_append.mp hc with hname | hup
    · obtain ⟨n, -, rfl⟩ := List.mem_map.mp hname
      exact ⟨by simp, by simp⟩
    · rw [List.mem_singleton.mp hup]
      exact ⟨by decide, by decide⟩
  rw [Path.relativeTo, toPath_components, hcomponents]
  split
  · rw [Component.route_append, Path.ofComponents_components hsteps]
  · rename_i hapart
    have hdir : dir.components = [] := by
      by_contra hne
      exact hapart (List.head?_append_of_ne_nil _ hne).symm
    rw [hcomponents, hdir, List.nil_append]

end CanonicalPath

namespace OutputMap

open CanonicalPath

variable (map : OutputMap) (front : List Name) {n m : Name} {stem : List Char} {preserveJsx : Bool}

theorem outputKey_kept
    (hn : ¬n.LostTo ((FileKind.ofName n.text).scriptExtension preserveJsx))
    (hm : m.chars = n.swapped ((FileKind.ofName n.text).scriptExtension preserveJsx)) :
    map.outputKey ⟨map.root.rooted, map.root.names ++ front ++ [n]⟩ preserveJsx =
      ⟨map.out.rooted, map.out.names ++ front ++ [m]⟩ := by
  rw [← FileKind.outputExtension_chars] at hn hm
  obtain ⟨k, hk, hkey⟩ := exists_outputName preserveJsx hn
  obtain rfl : k = m := Name.text_injective (String.toList_inj.mp (hk.trans hm.symm))
  rw [hkey, List.append_assoc, toOutput_below, List.append_assoc]

/-- The key of a name that is an ending alone has that name. -/
theorem outputKey_of_ending (hn : n.SourceStem []) :
    map.outputKey ⟨map.root.rooted, map.root.names ++ front ++ [n]⟩ preserveJsx =
      ⟨map.out.rooted, map.out.names ++ front ++ [n]⟩ := by
  refine map.outputKey_kept front ?_ (hn.swapped_nil _).symm
  rw [hn.lostTo_iff (FileKind.scriptExtension_ne_nil _ _)]
  decide

theorem outputKey_of_stem (hn : n.SourceStem stem) (hnil : stem ≠ []) (hdot : stem ≠ ['.'])
    (hm : m.chars = stem ++ '.' :: (FileKind.ofName n.text).scriptExtension preserveJsx) :
    map.outputKey ⟨map.root.rooted, map.root.names ++ front ++ [n]⟩ preserveJsx =
      ⟨map.out.rooted, map.out.names ++ front ++ [m]⟩ := by
  have hext := FileKind.scriptExtension_ne_nil (FileKind.ofName n.text) preserveJsx
  refine map.outputKey_kept front ?_ (hm.trans (hn.swapped hnil hext).symm)
  rw [hn.lostTo_iff hext]
  exact hdot

/-- The key of a name with only a dot in front of its ending is the directory above the one that
its output belongs to. -/
theorem outputKey_of_dot (hn : n.SourceStem ['.']) :
    map.outputKey ⟨map.root.rooted, map.root.names ++ front ++ [n]⟩ preserveJsx =
      ⟨map.out.rooted, (map.out.names ++ front).dropLast⟩ := by
  have hlost : n.LostTo ((FileKind.ofName n.text).scriptExtension preserveJsx) :=
    (hn.lostTo_iff (FileKind.scriptExtension_ne_nil _ _)).mpr rfl
  rw [← FileKind.outputExtension_chars, ← FileKind.outputExtension_dropWhile] at hlost
  rw [outputKey, FileKind.ofCanonical_name, swapExtension_lost _ _ _ hlost, relocate, join,
    ← climbing, relativeTo_climbing, walk_append, walk_names]
  rfl

/-- The key has the name of a script if the name of the source is neither lost nor kept. -/
theorem outputKey_eq_script_iff (hn : n.SourceStem stem)
    (hm : m.chars = stem ++ '.' :: (FileKind.ofName n.text).scriptExtension preserveJsx) :
    map.outputKey ⟨map.root.rooted, map.root.names ++ front ++ [n]⟩ preserveJsx =
        ⟨map.out.rooted, map.out.names ++ front ++ [m]⟩ ↔
      stem ≠ ['.'] ∧ (stem = [] → n = m) := by
  by_cases hdot : stem = ['.']
  · rw [map.outputKey_of_dot front (hdot ▸ hn)]
    refine iff_of_false (fun hsame => ?_) (fun h => h.1 hdot)
    have hdepth := congrArg depth hsame
    simp only [depth, List.length_dropLast, List.length_append, List.length_singleton] at hdepth
    omega
  · by_cases hnil : stem = []
    · rw [map.outputKey_of_ending front (hnil ▸ hn)]
      simp [hnil]
    · rw [map.outputKey_of_stem front hn hnil hdot hm]
      exact iff_of_true rfl ⟨hdot, fun h => absurd h hnil⟩

/-- The key of a source is the place below the output directory that the source has below the root,
under the name of a script: the ending of the source gives way to the extension of what is compiled
from it. This is so unless nothing is in front of the ending, when the source keeps its name, or a
dot alone, when the key is the directory above. -/
theorem outputKey_script (p : CanonicalPath) (preserveJsx : Bool)
    (hbelow : p.Below map.root) (hkind : (FileKind.ofCanonical p).IsSource) :
    ∃ front n m stem,
      let place (k : Name) : CanonicalPath := ⟨map.out.rooted, map.out.names ++ front ++ [k]⟩
      p = ⟨map.root.rooted, map.root.names ++ front ++ [n]⟩ ∧
      (∀ s, n.SourceStem s ↔ s = stem) ∧
      m.chars = stem ++ '.' :: (FileKind.ofCanonical p).scriptExtension preserveJsx ∧
      (place m).fileName? = some m ∧ FileKind.ofCanonical (place m) = .javaScript ∧
      (map.outputKey p preserveJsx = place m ↔ stem ≠ ['.'] ∧ (stem = [] → n = m)) ∧
      (stem = [] → map.outputKey p preserveJsx = place n) ∧
      (stem = ['.'] → map.outputKey p preserveJsx =
        ⟨map.out.rooted, (map.out.names ++ front).dropLast⟩) := by
  obtain ⟨front, n, rfl⟩ := hbelow.exists_last
  rw [FileKind.ofCanonical_name] at hkind ⊢
  obtain ⟨stem, hstem⟩ := Name.exists_sourceStem hkind
  obtain ⟨m, hm⟩ := hstem.exists_script (FileKind.ofName n.text) preserveJsx
  refine ⟨front, n, m, stem, rfl, fun s => ⟨fun hs => hs.unique hstem, fun hs => hs ▸ hstem⟩, hm,
    List.getLast?_concat .., ?_, ?_, ?_, ?_⟩
  · rw [FileKind.ofCanonical_name, Name.ofName_script hm]
  · exact map.outputKey_eq_script_iff front hstem hm
  · intro hnil
    exact map.outputKey_of_ending front (hnil ▸ hstem)
  · intro hdot
    exact map.outputKey_of_dot front (hdot ▸ hstem)

theorem outputKey_script_markup :
    let map : OutputMap := ⟨⟨true, [⟨"src", by decide⟩]⟩, ⟨true, [⟨"out", by decide⟩]⟩⟩
    let p : CanonicalPath := ⟨true, [⟨"src", by decide⟩, ⟨"d", by decide⟩, ⟨"a.TSX", by decide⟩]⟩
    p.Below map.root ∧ (FileKind.ofCanonical p).IsSource ∧
      (map.outputKey p true).fileName? = some ⟨"a.jsx", by decide⟩ ∧
      FileKind.ofCanonical (map.outputKey p true) = .javaScript := by
  intro map p
  have hbelow : p.Below map.root := ⟨[⟨"d", by decide⟩, ⟨"a.TSX", by decide⟩], by decide, rfl⟩
  have hkind : (FileKind.ofCanonical p).IsSource := by decide +kernel
  have htsx : FileKind.ofCanonical p = .tsx := by decide +kernel
  obtain ⟨front, n, m, stem, hp, hstem, hm, hname, hscript, hkey, -, -⟩ :=
    map.outputKey_script p true hbelow hkind
  obtain rfl : ⟨"a.TSX", by decide⟩ = n := by
    simpa [fileName?, p] using congrArg fileName? hp
  obtain rfl : ['a'] = stem := (hstem _).mp ⟨['.', 'T', 'S', 'X'], rfl, by decide⟩
  obtain rfl : m = ⟨"a.jsx", by decide⟩ := by
    apply Name.text_injective
    rw [htsx] at hm
    exact String.toList_inj.mp hm
  rw [hkey.mpr ⟨by decide, by simp⟩]
  exact ⟨hbelow, hkind, hname, hscript⟩

/-- The name of a source that is an ending alone is kept, and one with a dot in front of its ending
is lost. -/
theorem outputKey_not_script :
    let map : OutputMap := ⟨⟨true, [⟨"src", by decide⟩]⟩, ⟨true, [⟨"out", by decide⟩]⟩⟩
    let p : CanonicalPath := ⟨true, [⟨"src", by decide⟩, ⟨".ts", by decide⟩]⟩
    let q : CanonicalPath := ⟨true, [⟨"src", by decide⟩, ⟨"..ts", by decide⟩]⟩
    p.Below map.root ∧ q.Below map.root ∧
      FileKind.ofCanonical p = .typeScript ∧ FileKind.ofCanonical q = .typeScript ∧
      map.outputKey p false = ⟨true, [⟨"out", by decide⟩, ⟨".ts", by decide⟩]⟩ ∧
      FileKind.ofCanonical (map.outputKey p false) = .typeScript ∧
      map.outputKey q false = ⟨true, []⟩ ∧
      FileKind.ofCanonical (map.outputKey q false) = .other :=
  ⟨⟨[⟨".ts", by decide⟩], by decide, rfl⟩, ⟨[⟨"..ts", by decide⟩], by decide, rfl⟩,
    by decide +kernel⟩

end OutputMap

end Rebuild
