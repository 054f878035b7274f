import Rebuild.Proofs.Host.Passes
import Rebuild.Proofs.Path.Extension
import Rebuild.Service.Scripted

/-!
# Spellings of a file

A file is known by its canonical path, so it should not matter how it is
spelled. Adding, looking up and retrieving it comes to the same for all
spellings, up to the spelling that an error repeats. Only a transform looks
at the text itself: it takes the kind of a file from the end of its spelling,
and a spelling that ends in a climb has no kind, whatever it leads to.
-/

set_option autoImplicit false

namespace Rebuild

variable {σ H : Type}

def HostError.about (file : Path) : HostError → HostError
  | .addAfterCompile _ => .addAfterCompile file
  | .noOutput _ => .noOutput file
  | .compileFailed _ => .compileFailed file
  | .workingDirectory e => .workingDirectory e
  | .internal e => .internal e

/-! ## Kinds -/

theorem CanonicalPath.join_fileName? (dir : CanonicalPath) {p : Path} {n : Name}
    (hp : p.fileName? = some n) : (dir.join p).fileName? = some n := by
  have hlast : p.components.getLast? = some (.name n) := by
    rw [Path.fileName?] at hp
    split at hp
    · rename_i h
      rw [h, Option.some.inj hp]
    · cases hp
  obtain ⟨front, hfront⟩ := List.getLast?_eq_some_iff.mp hlast
  rw [join, hfront, walk_append]
  change ((dir.walk front).step (.name n)).fileName? = some n
  rw [step, fileName?, List.getLast?_concat]

theorem FileKind.ofPath_join (dir : CanonicalPath) (p : Path) :
    ofPath p = if p.fileName?.isSome then ofCanonical (dir.join p) else .other := by
  cases hp : p.fileName? with
  | none =>
    rw [ofPath, hp]
    rfl
  | some n =>
    rw [ofPath, hp, ofCanonical, ofPath, CanonicalPath.toPath_fileName?, dir.join_fileName? hp]
    rfl

namespace Host

variable {h : Host σ H} {p q : Path}

/-! ## What goes by the canonical path -/

theorem addFile_about (hsame : h.cache.canonicalize p = h.cache.canonicalize q) (disk : Disk)
    (isRoot : Bool) :
    h.addFile disk q isRoot =
      ((h.addFile disk p isRoot).1.mapError (·.about q), (h.addFile disk p isRoot).2) := by
  by_cases hphase : h.phase = .compiled
  · rw [addFile_compiled h disk p isRoot hphase, addFile_compiled h disk q isRoot hphase]
    rfl
  · have hread : h.cache.read disk q (some isRoot) h.service.parse h.serviceState =
        h.cache.read disk p (some isRoot) h.service.parse h.serviceState := by
      rw [FileCache.read, FileCache.read, hsame]
    rw [addFile_idle h disk p isRoot hphase, addFile_idle h disk q isRoot hphase, hread]
    rfl

theorem output?_eq (hsame : h.cache.canonicalize p = h.cache.canonicalize q) :
    h.output? q = h.output? p := by
  rw [output?, output?, hsame]

theorem stored_about (hsame : h.cache.canonicalize p = h.cache.canonicalize q) :
    h.stored q = (h.stored p).mapError (·.about q) := by
  rw [stored, stored, output?_eq hsame, hsame]
  cases h.output? p <;> rfl

theorem compile_about (h : Host σ H) (disk : Disk) (file : Path) :
    (h.compile disk).1.mapError (·.about file) = (h.compile disk).1 := by
  have hanswer : (h.compile disk).1 = ((h.pass disk).2.conclude disk (h.pass disk).1).1 := rfl
  rw [hanswer]
  cases (h.pass disk).1 <;> rfl

theorem settle_about {r : Except HostError PassSummary × Host σ H}
    (hr : r.1.mapError (·.about q) = r.1)
    (hsame : r.2.cache.canonicalize p = r.2.cache.canonicalize q) :
    settle q r = ((settle p r).1.mapError (·.about q), (settle p r).2) := by
  obtain ⟨answer, next⟩ := r
  cases answer with
  | error e =>
    exact Prod.ext (congrArg (fun e => Except.error e) (Except.error.inj hr)).symm rfl
  | ok summary =>
    rw [settle, settle]
    split
    · rfl
    · rw [stored_about hsame]

theorem retrieve_about (hsame : h.cache.canonicalize p = h.cache.canonicalize q) (disk : Disk) :
    h.retrieve disk q = ((h.retrieve disk p).1.mapError (·.about q), (h.retrieve disk p).2) := by
  have hkeys : h.keyOf q = h.keyOf p := by rw [keyOf, keyOf, hsame]
  cases hf : h.failed with
  | true =>
    rw [h.retrieve_failed disk p hf, h.retrieve_failed disk q hf]
    rfl
  | false =>
    cases hkey : h.known (h.keyOf p) with
    | true =>
      have hkey' : h.known (h.keyOf q) = true := by rw [hkeys, hkey]
      rw [h.retrieve_known disk p hf hkey, h.retrieve_known disk q hf hkey', stored_about hsame]
    | false =>
      have hkey' : h.known (h.keyOf q) = false := by rw [hkeys, hkey]
      rw [h.retrieve_new disk p hf hkey, h.retrieve_new disk q hf hkey', hkeys]
      refine settle_about (compile_about _ disk q) ?_
      rw [FileCache.canonicalize, FileCache.canonicalize, compile_currentDir]
      exact hsame

/-! ## What goes by the spelling -/

def takes (h : Host σ H) (kind : FileKind) : Bool := kind = .declaration || h.compiles kind

theorem transform_of_not_takes (disk : Disk) (ht : h.takes (FileKind.ofPath p) = false) :
    h.transform disk p = (.ok .passThrough, h) := by
  rw [takes, Bool.or_eq_false_iff] at ht
  rw [transform_eq, outright?, if_neg (of_decide_eq_false ht.1), if_pos (by rw [ht.2]; rfl)]

theorem transform_of_takes (disk : Disk) (ht : h.takes (FileKind.ofPath p) = true) :
    (h.transform disk p).1 ≠ .ok .passThrough := by
  rw [takes, Bool.or_eq_true, decide_eq_true_eq] at ht
  rw [transform_eq, outright?]
  by_cases hkind : FileKind.ofPath p = .declaration
  · rw [if_pos hkind]
    simp
  · rw [if_neg hkind, ht.resolve_left hkind]
    cases h.failed with
    | true => simp
    | false =>
      cases (h.retrieve disk p).1 with
      | ok data => simp [Except.map]
      | error e => simp [Except.map]

theorem transform_about (hsame : h.cache.canonicalize p = h.cache.canonicalize q)
    (hkind : FileKind.ofPath p = FileKind.ofPath q) (disk : Disk) :
    h.transform disk q = ((h.transform disk p).1.mapError (·.about q), (h.transform disk p).2) := by
  have houtright : h.outright? q = h.outright? p := by rw [outright?, outright?, hkind]
  rw [transform_eq, transform_eq, houtright, retrieve_about hsame]
  cases h.outright? p with
  | some t => rfl
  | none => cases (h.retrieve disk p).1 <;> rfl

theorem transform_passThrough_iff (disk : Disk) :
    (h.transform disk p).1 = .ok .passThrough ↔ h.takes (FileKind.ofPath p) = false := by
  cases ht : h.takes (FileKind.ofPath p) with
  | true => simpa using transform_of_takes disk ht
  | false => simp [transform_of_not_takes disk ht]

theorem takes_ofPath (h : Host σ H) (p : Path) :
    h.takes (FileKind.ofPath p) =
      (p.fileName?.isSome && h.takes (FileKind.ofCanonical (h.cache.canonicalize p))) := by
  rw [FileKind.ofPath_join h.cache.currentDir, FileCache.canonicalize]
  cases p.fileName?.isSome with
  | true => rw [if_pos rfl, Bool.true_and]
  | false =>
    rw [if_neg Bool.false_ne_true, Bool.false_and]
    rfl

theorem transform_about_iff (hsame : h.cache.canonicalize p = h.cache.canonicalize q)
    (disk : Disk) :
    h.transform disk q = ((h.transform disk p).1.mapError (·.about q), (h.transform disk p).2) ↔
      p.fileName?.isSome = q.fileName?.isSome ∨
        h.takes (FileKind.ofCanonical (h.cache.canonicalize p)) = false := by
  have htakesp := h.takes_ofPath p
  have htakesq := h.takes_ofPath q
  rw [← hsame] at htakesq
  constructor
  · intro halike
    have hpass : (h.transform disk q).1 = .ok .passThrough ↔
        (h.transform disk p).1 = .ok .passThrough := by
      rw [halike]
      cases (h.transform disk p).1 <;> simp [Except.mapError]
    rw [transform_passThrough_iff, transform_passThrough_iff, htakesp, htakesq] at hpass
    revert hpass
    cases h.takes (FileKind.ofCanonical (h.cache.canonicalize p)) <;>
      cases p.fileName?.isSome <;> cases q.fileName?.isSome <;> simp
  · rintro (hnames | hpass)
    · have hjoin : h.cache.currentDir.join p = h.cache.currentDir.join q := hsame
      refine transform_about hsame ?_ disk
      rw [FileKind.ofPath_join h.cache.currentDir p, FileKind.ofPath_join h.cache.currentDir q,
        hnames, hjoin]
    · rw [hpass, Bool.and_false] at htakesp htakesq
      rw [transform_of_not_takes disk htakesp, transform_of_not_takes disk htakesq]
      rfl

/-- Requests for a file go by its canonical path, up to the spelling that an error repeats. A
transform also needs to see the kind of the file at the end of the spelling. -/
theorem spelling_immaterial (h : Host σ H) (disk : Disk) (p q : Path)
    (hsame : h.cache.canonicalize p = h.cache.canonicalize q) :
    (∀ isRoot, h.addFile disk q isRoot =
      ((h.addFile disk p isRoot).1.mapError (·.about q), (h.addFile disk p isRoot).2)) ∧
    h.output? q = h.output? p ∧
    h.retrieve disk q = ((h.retrieve disk p).1.mapError (·.about q), (h.retrieve disk p).2) ∧
    (h.transform disk q =
        ((h.transform disk p).1.mapError (·.about q), (h.transform disk p).2) ↔
      p.fileName?.isSome = q.fileName?.isSome ∨
        h.takes (FileKind.ofCanonical (h.cache.canonicalize p)) = false) :=
  ⟨fun isRoot => addFile_about hsame disk isRoot, output?_eq hsame, retrieve_about hsame disk,
    transform_about_iff hsame disk⟩

theorem spelling_immaterial_scripted :
    let script : Scripted.Script :=
      { Scripted.Script.blank with emission := .ofWrites [(⟨"/a.js"⟩, "x".toUTF8)] [] false }
    let h := ofService (Scripted.service [script]) .empty (.default ⟨"/"⟩)
    let p : Path := ⟨"a.ts"⟩
    let q : Path := ⟨"b/..//a.ts/."⟩
    h.cache.canonicalize p = h.cache.canonicalize q ∧
      h.retrieve .empty q =
        ((h.retrieve .empty p).1.mapError (·.about q), (h.retrieve .empty p).2) ∧
      h.transform .empty q =
        ((h.transform .empty p).1.mapError (·.about q), (h.transform .empty p).2) := by
  intro script h p q
  have hsame : h.cache.canonicalize p = h.cache.canonicalize q := by decide +kernel
  obtain ⟨-, -, hretrieve, htransform⟩ := spelling_immaterial h .empty p q hsame
  exact ⟨hsame, hretrieve, htransform.mpr (Or.inl (by decide +kernel))⟩

/-- A spelling that ends in a climb is handed through, though it leads to a file that is compiled
under its own name. -/
theorem spelling_matters_to_transform :
    let script : Scripted.Script :=
      { Scripted.Script.blank with emission := .ofWrites [(⟨"/a.js"⟩, "x".toUTF8)] [] false }
    let h := ofService (Scripted.service [script]) .empty (.default ⟨"/"⟩)
    let p : Path := ⟨"a.ts"⟩
    let q : Path := ⟨"a.ts/b/.."⟩
    h.Reachable ∧ h.cache.canonicalize p = h.cache.canonicalize q ∧
      (h.transform .empty p).1 = .ok (.compiled "x".toUTF8) ∧
      (h.transform .empty q).1 = .ok .passThrough := by
  intro script h p q
  have hsame : h.cache.canonicalize p = h.cache.canonicalize q := by decide +kernel
  have hnone : h.outright? p = none := Option.isNone_iff_eq_none.mp (by decide +kernel)
  have hretrieve : (h.retrieve .empty p).1 = .ok "x".toUTF8 := by decide +kernel
  refine ⟨.start _ _ _, hsame, ?_, (transform_passThrough_iff _).mpr (by decide +kernel)⟩
  rw [transform_eq, hnone, hretrieve]
  rfl

end Host

end Rebuild
