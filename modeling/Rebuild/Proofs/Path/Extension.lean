import Mathlib.Data.List.TakeWhile
import Rebuild.FileKind
import Rebuild.Proofs.Path.Joining

/-!
# Extensions

The extension of a name is what is behind its last dot. It is swapped in the
last name of a path and changes nothing else. A name that starts with a climb
is left out, since it may become one.
-/

set_option autoImplicit false

namespace Rebuild

namespace Path

theorem splitLastDot_append (stem : List Char) {ext : List Char} (h : '.' ∉ ext) :
    splitLastDot (stem ++ '.' :: ext) = some (stem, ext) := by
  have hreverse : (stem ++ '.' :: ext).reverse = ext.reverse ++ '.' :: stem.reverse := by simp
  have hafter : (ext.reverse ++ '.' :: stem.reverse).takeWhile (· ≠ '.') = ext.reverse := by
    rw [List.takeWhile_append_of_pos]
    · simp
    · intro c hc
      have hne : c ≠ '.' := fun heq => h (heq ▸ List.mem_reverse.mp hc)
      simpa using hne
  rw [splitLastDot, hreverse, hafter]
  simp

theorem splitLastDot_of_not_mem {s : List Char} (h : '.' ∉ s) : splitLastDot s = none := by
  have hafter : s.reverse.takeWhile (· ≠ '.') = s.reverse := by
    apply List.takeWhile_eq_self_iff.mpr
    intro c hc
    have hne : c ≠ '.' := fun heq => h (heq ▸ List.mem_reverse.mp hc)
    simpa using hne
  have hdrop : s.reverse.drop s.reverse.length = [] := List.drop_length
  rw [splitLastDot, hafter, hdrop]

theorem splitLastDot_cases (s : List Char) :
    splitLastDot s = none ∨
      ∃ stem ext, '.' ∉ ext ∧ s = stem ++ '.' :: ext ∧ splitLastDot s = some (stem, ext) := by
  by_cases h : '.' ∈ s
  · obtain ⟨ext, stem, hs, hext⟩ := List.eq_append_cons_of_mem (List.mem_reverse.mpr h)
    have hsplit : s = stem.reverse ++ '.' :: ext.reverse := by
      rw [← List.reverse_reverse s, hs]
      simp
    refine Or.inr ⟨stem.reverse, ext.reverse, by simpa using hext, hsplit, ?_⟩
    rw [hsplit]
    exact splitLastDot_append _ (by simpa using hext)
  · exact Or.inl (splitLastDot_of_not_mem h)

/-- What is left of a path when its extension is cut off the text. The dot stays. -/
def cutExtension (p : Path) : Path :=
  ⟨String.ofList (p.text.toList.take (p.text.length - (p.extension?.getD "").length))⟩

theorem withExtension_of_stem {p : Path} {stem : String} (ext : String)
    (h : p.cutExtension.fileStem? = some stem) :
    p.withExtension ext =
      p.cutExtension.withLastSegment (if ext = "" then stem else stem ++ "." ++ ext).toList := by
  rw [cutExtension] at h ⊢
  unfold withExtension
  simp only [h]

theorem withExtension_of_no_stem {p : Path} (ext : String)
    (h : p.cutExtension.fileStem? = none) : p.withExtension ext = p.cutExtension := by
  rw [cutExtension] at h ⊢
  unfold withExtension
  simp only [h]

end Path

namespace Name

theorem toList_text (n : Name) : n.text.toList = n.chars := rfl

theorem exists_chars {cs : List Char} (hnil : cs ≠ []) (hdot : cs ≠ ['.'])
    (hdots : cs ≠ ['.', '.']) (hslash : '/' ∉ cs) : ∃ n : Name, n.chars = cs := by
  have hname : IsName (String.ofList cs) := by
    refine ⟨?_, ?_, ?_, ?_⟩
    · intro h
      exact hnil (by simpa using congrArg String.toList h)
    · intro h
      exact hdot (by simpa using congrArg String.toList h)
    · intro h
      exact hdots (by simpa using congrArg String.toList h)
    · simpa using hslash
  exact ⟨⟨String.ofList cs, hname⟩, by simp [chars]⟩

/-- The text of a name with another extension. A name that has none keeps its text. -/
def swapped (n : Name) (ext : List Char) : List Char :=
  match Path.splitLastDot n.chars with
  | none => n.chars
  | some ([], _) => n.chars
  | some (stem, _) => if ext = [] then stem else stem ++ '.' :: ext

theorem stemAndExtension_append {n : Name} {stem ext : List Char} (hstem : stem ≠ [])
    (hext : '.' ∉ ext) (hchars : n.chars = stem ++ '.' :: ext) :
    Path.stemAndExtension n.text = (String.ofList stem, some (String.ofList ext)) := by
  rw [Path.stemAndExtension, toList_text, hchars, Path.splitLastDot_append stem hext]
  cases stem with
  | nil => exact absurd rfl hstem
  | cons c cs => rfl

def Climbs (n : Name) : Prop := ['.', '.'] <+: n.chars

instance (n : Name) : Decidable n.Climbs := inferInstanceAs (Decidable (_ <+: _))

/-- A name that becomes a climb when it is given this extension: without its old extension it is
a climb already, or nothing is left of it but a climb. -/
def LostTo (n : Name) (ext : List Char) : Prop :=
  ∃ old, '.' ∉ old ∧
    (n.chars = '.' :: '.' :: old ∨ n.chars = '.' :: '.' :: '.' :: old ∧ ext = [])

instance (n : Name) (ext : List Char) : Decidable (n.LostTo ext) :=
  decidable_of_iff
    (['.', '.'] <+: n.chars ∧ '.' ∉ n.chars.drop 2 ∨
      ['.', '.', '.'] <+: n.chars ∧ '.' ∉ n.chars.drop 3 ∧ ext = []) (by
    constructor
    · rintro (⟨⟨old, hchars⟩, hold⟩ | ⟨⟨old, hchars⟩, hold, hext⟩)
      · rw [← hchars] at hold
        exact ⟨old, hold, Or.inl hchars.symm⟩
      · rw [← hchars] at hold
        exact ⟨old, hold, Or.inr ⟨hchars.symm, hext⟩⟩
    · rintro ⟨old, hold, hchars | ⟨hchars, hext⟩⟩
      · rw [hchars]
        exact Or.inl ⟨⟨old, rfl⟩, hold⟩
      · rw [hchars]
        exact Or.inr ⟨⟨old, rfl⟩, hold, hext⟩)

theorem LostTo.climbs {n : Name} {ext : List Char} (h : n.LostTo ext) : n.Climbs := by
  obtain ⟨old, -, hchars | ⟨hchars, -⟩⟩ := h
  · exact ⟨old, hchars.symm⟩
  · exact ⟨'.' :: old, hchars.symm⟩

theorem swapped_cases (n : Name) :
    ((Path.stemAndExtension n.text).2 = none ∧ ∀ ext, n.swapped ext = n.chars) ∨
    ∃ stem old, stem ≠ [] ∧ '.' ∉ old ∧ n.chars = stem ++ '.' :: old ∧
      Path.stemAndExtension n.text = (String.ofList stem, some (String.ofList old)) ∧
      ∀ ext, n.swapped ext = if ext = [] then stem else stem ++ '.' :: ext := by
  rcases Path.splitLastDot_cases n.chars with hnone | ⟨stem, old, hold, hchars, hsome⟩
  · left
    constructor
    · rw [Path.stemAndExtension, toList_text, hnone]
    · intro ext
      rw [swapped, hnone]
  · cases stem with
    | nil =>
      left
      constructor
      · rw [Path.stemAndExtension, toList_text, hsome]
      · intro ext
        rw [swapped, hsome]
    | cons c cs =>
      right
      refine ⟨c :: cs, old, List.cons_ne_nil _ _, hold, hchars,
        stemAndExtension_append (List.cons_ne_nil _ _) hold hchars, ?_⟩
      intro ext
      rw [swapped, hsome]

theorem stem_ne_of_not_lost {n : Name} {stem old ext : List Char} (hn : ¬n.LostTo ext)
    (hold : '.' ∉ old) (hchars : n.chars = stem ++ '.' :: old) :
    stem ≠ ['.'] ∧ (ext = [] → stem ≠ ['.', '.']) := by
  constructor
  · rintro rfl
    exact hn ⟨old, hold, Or.inl hchars⟩
  · rintro hext rfl
    exact hn ⟨old, hold, Or.inr ⟨hchars, hext⟩⟩

theorem exists_swapped {n : Name} {ext : List Char} (hn : ¬n.LostTo ext) (hext : '/' ∉ ext) :
    ∃ m : Name, m.chars = n.swapped ext := by
  rcases n.swapped_cases with ⟨-, hkeep⟩ | ⟨stem, old, hstem, hold, hchars, -, hswap⟩
  · exact ⟨n, (hkeep ext).symm⟩
  · have hslash := n.not_mem_chars
    obtain ⟨hdot, hdots⟩ := stem_ne_of_not_lost hn hold hchars
    rw [hchars] at hslash
    rw [hswap]
    split
    · rename_i hnil
      exact exists_chars hstem hdot (hdots hnil) (by simp_all)
    · apply exists_chars
      · simp
      · cases stem <;> simp_all
      · cases stem with
        | nil => exact absurd rfl hstem
        | cons c cs => cases cs <;> simp_all
      · simp_all

end Name

namespace CanonicalPath

theorem toPath_fileName? (p : CanonicalPath) : p.toPath.fileName? = p.fileName? := by
  rw [Path.fileName?, toPath_components, components, fileName?]
  obtain hnil | ⟨names, n, hn⟩ := List.eq_nil_or_concat' p.names
  · rw [hnil]
    cases p.rooted <;> rfl
  · rw [hn]
    simp

theorem fileName?_toPath (rooted : Bool) (names : List Name) (n : Name) :
    (toPath ⟨rooted, names ++ [n]⟩).fileName? = some n := by
  rw [toPath_fileName?, fileName?, List.getLast?_concat]

theorem withLastSegment_toPath (rooted : Bool) (names : List Name) (n : Name) {q : Path}
    (hq : '/' ∉ q.text.toList) :
    (toPath ⟨rooted, names ++ [n]⟩).withLastSegment q.text.toList =
      (toPath ⟨rooted, names⟩).join q := by
  have hsegs := toPath_segments ⟨rooted, names ++ [n]⟩
  rw [nameSegments_append] at hsegs
  apply Path.ext_chars
  rw [← Path.joinSegments_segments ((toPath ⟨rooted, names⟩).join q),
    segments_toPath_join rooted names hq, Path.withLastSegment, hsegs]
  cases rooted with
  | true =>
    simp only [if_true, List.singleton_append, dropBlank_concat n.chars_ne_nil n.chars_ne_dot]
    simp [Path.ofSegments]
  | false =>
    cases names with
    | nil => simp [Path.dropBlank, Path.ofSegments]
    | cons a names =>
      simp only [Bool.false_eq_true, if_false, List.nil_append, List.map_cons, List.cons_append,
        dropBlank_concat n.chars_ne_nil n.chars_ne_dot]
      simp [Path.ofSegments]

theorem extension?_toPath (rooted : Bool) (names : List Name) (n : Name) :
    (toPath ⟨rooted, names ++ [n]⟩).extension? = (Path.stemAndExtension n.text).2 := by
  rw [Path.extension?, fileName?_toPath, Option.bind_some]

theorem fileStem?_toPath (rooted : Bool) (names : List Name) (n : Name) :
    (toPath ⟨rooted, names ++ [n]⟩).fileStem? = some (Path.stemAndExtension n.text).1 := by
  rw [Path.fileStem?, fileName?_toPath, Option.map_some]

theorem cutExtension_toPath (rooted : Bool) (names : List Name) {n : Name}
    {stem old : List Char} (hstem : stem ≠ []) (hold : '.' ∉ old)
    (hchars : n.chars = stem ++ '.' :: old) {q : Path} (hq : q.isAbsolute = false)
    (hqchars : q.text.toList = stem ++ ['.']) :
    (toPath ⟨rooted, names ++ [n]⟩).cutExtension = (toPath ⟨rooted, names⟩).join q := by
  obtain ⟨front, hfront⟩ := (toPath ⟨rooted, names⟩).exists_front
  have hlast : (toPath ⟨rooted, names ++ [n]⟩).text.toList = front ++ (stem ++ '.' :: old) := by
    rw [← toPath_join_name, hfront _ (Path.isAbsolute_name n), Name.toList_text, hchars]
  have hshort : front ++ (stem ++ '.' :: old) = (front ++ (stem ++ ['.'])) ++ old := by simp
  apply Path.ext_chars
  rw [Path.cutExtension, extension?_toPath, Name.stemAndExtension_append hstem hold hchars,
    Option.getD_some, String.toList_ofList, ← String.length_toList, hlast, hfront q hq, hqchars,
    String.length_ofList, hshort]
  apply List.take_left'
  simp
  omega

theorem withExtension_toPath (rooted : Bool) (names : List Name) {n : Name}
    {stem old : List Char} (hstem : stem ≠ []) (hdot : stem ≠ ['.']) (hold : '.' ∉ old)
    (hchars : n.chars = stem ++ '.' :: old) (ext : String) {q : Path} (hq : '/' ∉ q.text.toList)
    (hnew : q.text.toList = if ext.toList = [] then stem else stem ++ '.' :: ext.toList) :
    (toPath ⟨rooted, names ++ [n]⟩).withExtension ext = (toPath ⟨rooted, names⟩).join q := by
  obtain ⟨k, hk⟩ : ∃ k : Name, k.chars = stem ++ ['.'] := by
    have hslash := n.not_mem_chars
    rw [hchars] at hslash
    apply Name.exists_chars
    · simp
    · simpa using hstem
    · intro hdots
      exact hdot (List.append_cancel_right (show stem ++ ['.'] = ['.'] ++ ['.'] from hdots))
    · simp_all
  have hcut := cutExtension_toPath rooted names hstem hold hchars (Path.isAbsolute_name k) hk
  rw [toPath_join_name] at hcut
  have hleft : (toPath ⟨rooted, names ++ [n]⟩).cutExtension.fileStem? =
      some (String.ofList stem) := by
    rw [hcut, fileStem?_toPath, Name.stemAndExtension_append hstem List.not_mem_nil hk]
  have htext : (if ext = "" then String.ofList stem
      else String.ofList stem ++ "." ++ ext).toList = q.text.toList := by
    rw [hnew]
    by_cases hext : ext = ""
    · simp [hext]
    · simp [hext]
  rw [Path.withExtension_of_stem ext hleft, hcut, htext, withLastSegment_toPath _ _ _ hq]

theorem withExtension_dot (rooted : Bool) (names : List Name) {n : Name} {old : List Char}
    (hold : '.' ∉ old) (hchars : n.chars = '.' :: '.' :: old) (ext : String) :
    (toPath ⟨rooted, names ++ [n]⟩).withExtension ext = (toPath ⟨rooted, names⟩).join ⟨".."⟩ := by
  have hcut : (toPath ⟨rooted, names ++ [n]⟩).cutExtension =
      (toPath ⟨rooted, names⟩).join ⟨".."⟩ :=
    cutExtension_toPath rooted names (List.cons_ne_nil '.' []) hold hchars rfl rfl
  have hup : (⟨".."⟩ : Path).components = [.up] := by decide
  have hleft : (toPath ⟨rooted, names ++ [n]⟩).cutExtension.fileStem? = none := by
    rw [hcut, Path.fileStem?, Path.fileName?, Path.join_components_of_not_mem _ rfl (by decide),
      hup, List.getLast?_concat]
    rfl
  rw [Path.withExtension_of_no_stem ext hleft, hcut]

theorem swapExtension_eq (rooted : Bool) (names : List Name) {n m : Name} (ext : String)
    (hn : ¬n.LostTo (ext.toList.dropWhile (· = '.')))
    (hm : m.chars = n.swapped (ext.toList.dropWhile (· = '.'))) :
    swapExtension ⟨rooted, names ++ [n]⟩ ext = toPath ⟨rooted, names ++ [m]⟩ := by
  rw [swapExtension, Path.swapExtension, extension?_toPath]
  rcases n.swapped_cases with ⟨hnone, hkeep⟩ | ⟨stem, old, hstem, hold, hchars, hsplit, hswap⟩
  · have hsame : m = n := Name.text_injective (String.toList_inj.mp (hm.trans (hkeep _)))
    rw [hnone, hsame]
    rfl
  · have hdot := (Name.stem_ne_of_not_lost hn hold hchars).1
    rw [hsplit, ← toPath_join_name rooted names m]
    simp only [Option.isSome_some, if_true]
    refine withExtension_toPath rooted names hstem hdot hold hchars _ m.not_mem_chars ?_
    rw [Name.toList_text, hm, hswap, String.toList_ofList]

theorem swapExtension_lost (rooted : Bool) (names : List Name) {n : Name} (ext : String)
    (hn : n.LostTo (ext.toList.dropWhile (· = '.'))) :
    swapExtension ⟨rooted, names ++ [n]⟩ ext = (toPath ⟨rooted, names⟩).join ⟨".."⟩ := by
  rw [swapExtension, Path.swapExtension, extension?_toPath]
  obtain ⟨old, hold, hchars | ⟨hchars, hext⟩⟩ := hn
  · rw [Name.stemAndExtension_append (List.cons_ne_nil '.' []) hold hchars]
    simp only [Option.isSome_some, if_true]
    exact withExtension_dot rooted names hold hchars _
  · have hdots : n.chars = ['.', '.'] ++ '.' :: old := hchars
    rw [Name.stemAndExtension_append (by simp) hold hdots, hext]
    simp only [Option.isSome_some, if_true]
    exact withExtension_toPath rooted names (by simp) (by simp) hold hdots _ (by decide) rfl

end CanonicalPath

end Rebuild
