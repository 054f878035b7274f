import Mathlib.Data.List.Induction
import Rebuild.Proofs.Path.Joining
import Rebuild.Proofs.Path.Relative

/-!
# Climbing paths

The way from one canonical path to another climbs to the last directory that
both share and goes down from there. Its text is read back as these very
steps, so following the way ends where it should.
-/

set_option autoImplicit false

namespace Rebuild

namespace Component

def IsStep (c : Component) : Prop := c ≠ .root ∧ c ≠ .here

def chars (c : Component) : List Char := c.text.toList

theorem ofSegment?_step {c : Component} (h : c.IsStep) : ofSegment? c.chars = some c := by
  cases c with
  | root => exact absurd rfl h.1
  | here => exact absurd rfl h.2
  | up => rfl
  | name n => exact n.ofSegment?_chars

theorem not_mem_step {c : Component} (h : c.IsStep) : '/' ∉ c.chars := by
  cases c with
  | root => exact absurd rfl h.1
  | here => exact absurd rfl h.2
  | up => decide
  | name n => exact n.not_mem_chars

theorem step_ne_nil {c : Component} (h : c.IsStep) : c.chars ≠ [] := by
  intro hnil
  have hstep := ofSegment?_step h
  rw [hnil, ofSegment?_nil] at hstep
  cases hstep

theorem step_ne_dot {c : Component} (h : c.IsStep) : c.chars ≠ ['.'] := by
  intro hdot
  have hstep := ofSegment?_step h
  rw [hdot, ofSegment?_dot] at hstep
  cases hstep

end Component

namespace Path

open Component

theorem isAbsolute_step {c : Component} (h : c.IsStep) : isAbsolute ⟨c.text⟩ = false :=
  isAbsolute_of_not_mem (not_mem_step h)

theorem segments_step {c : Component} (h : c.IsStep) : segments ⟨c.text⟩ = [c.chars] :=
  segments_of_not_mem (not_mem_step h)

/-- A text without an empty segment at its end needs a separator before more is joined. -/
theorem segments_join_step {dir : Path} {c : Component} (h : c.IsStep)
    (hlast : dir.segments.getLast? ≠ some []) :
    (dir.join ⟨c.text⟩).segments = dir.segments ++ [c.chars] := by
  rw [← segments_step h]
  refine segments_join_closed (isAbsolute_step h) ?_
  rintro (hempty | hend)
  · exact hlast (by rw [segments, hempty]; rfl)
  · obtain ⟨first, rest, hdir, -⟩ := segments_join_open (isAbsolute_step h) hend
    rw [← List.cons_append] at hdir
    exact hlast (by rw [hdir, List.getLast?_concat])

theorem ofComponents_append (cs : List Component) (c : Component) :
    ofComponents (cs ++ [c]) = (ofComponents cs).join ⟨c.text⟩ := by
  simp [ofComponents]

theorem ofComponents_segments {cs : List Component} (h : ∀ c ∈ cs, c.IsStep) (hne : cs ≠ []) :
    (ofComponents cs).segments = cs.map Component.chars := by
  induction cs using List.reverseRecOn with
  | nil => exact absurd rfl hne
  | append_singleton cs c ih =>
    have hc := h c (by simp)
    by_cases hnil : cs = []
    · rw [hnil, ofComponents_append]
      have hjoin : (ofComponents []).join ⟨c.text⟩ = ⟨c.text⟩ := by
        simp [ofComponents, join, isAbsolute_step hc]
      rw [hjoin, segments_step hc]
      rfl
    · have hsegs := ih (fun c hmem => h c (by simp [hmem])) hnil
      have hlast : (ofComponents cs).segments.getLast? ≠ some [] := by
        rw [hsegs, List.getLast?_map]
        intro hlast
        obtain ⟨d, hd, hnone⟩ := Option.map_eq_some_iff.mp hlast
        exact step_ne_nil (h d (by simp [List.mem_of_getLast? hd])) hnone
      rw [ofComponents_append, segments_join_step hc hlast, hsegs, List.map_append]
      rfl

theorem ofComponents_chars {cs : List Component} (h : ∀ c ∈ cs, c.IsStep) :
    (ofComponents cs).text.toList = joinSegments (cs.map Component.chars) := by
  by_cases hnil : cs = []
  · rw [hnil]
    rfl
  · rw [← joinSegments_segments, ofComponents_segments h hnil]

theorem ofComponents_components {cs : List Component} (h : ∀ c ∈ cs, c.IsStep) :
    (ofComponents cs).components = cs := by
  cases cs with
  | nil => rfl
  | cons c cs =>
    have hc := h c (List.mem_cons_self ..)
    have hrest : (cs.map Component.chars).filterMap ofSegment? = cs := by
      rw [List.filterMap_map]
      refine (List.filterMap_congr fun d hd => ?_).trans List.filterMap_some
      exact ofSegment?_step (h d (List.mem_cons_of_mem _ hd))
    rw [components_of_segments (ofComponents_segments h (List.cons_ne_nil c cs)), anchor,
      if_neg (step_ne_nil hc), if_neg (step_ne_dot hc), ofSegment?_step hc, hrest]
    rfl

end Path

/-! ## Ways -/

def Apart {α : Type} (as bs : List α) : Prop := ∀ a ∈ as.head?, ∀ b ∈ bs.head?, a ≠ b

theorem exists_apart {α : Type} [DecidableEq α] (as bs : List α) :
    ∃ shared above below, as = shared ++ above ∧ bs = shared ++ below ∧ Apart above below := by
  induction as generalizing bs with
  | nil => exact ⟨[], [], bs, rfl, rfl, by simp [Apart]⟩
  | cons a as ih =>
    cases bs with
    | nil => exact ⟨[], a :: as, [], rfl, rfl, by simp [Apart]⟩
    | cons b bs =>
      by_cases hab : a = b
      · obtain ⟨shared, above, below, rfl, rfl, hapart⟩ := ih bs
        exact ⟨a :: shared, above, below, rfl, by rw [hab]; rfl, hapart⟩
      · exact ⟨[], a :: as, b :: bs, rfl, rfl, by simpa [Apart] using hab⟩

theorem Component.route_apart {above below : List Name} (hapart : Apart above below)
    (shared : List Name) :
    route ((shared ++ above).map .name) ((shared ++ below).map .name) =
      List.replicate above.length .up ++ below.map .name := by
  induction shared with
  | nil =>
    cases above with
    | nil => cases below <;> rfl
    | cons a above =>
      cases below with
      | nil =>
        rw [List.nil_append, List.nil_append, List.map_cons, List.map_nil, route.eq_def]
        simp [Function.comp_def, List.replicate_succ]
      | cons b below =>
        have hab : a ≠ b := hapart a rfl b rfl
        rw [List.nil_append, List.nil_append, List.map_cons, List.map_cons, route,
          if_neg (fun he => hab (Component.name.inj he)), List.map_const', List.length_cons,
          List.length_map]
        rfl
  | cons n shared ih =>
    rw [List.cons_append, List.cons_append, List.map_cons, List.map_cons, route, if_pos rfl, ih]

namespace CanonicalPath

theorem walk_up (dir : CanonicalPath) (n : Nat) :
    dir.walk (List.replicate n .up) = ⟨dir.rooted, dir.names.take (dir.names.length - n)⟩ := by
  induction n generalizing dir with
  | zero => simp [walk]
  | succ n ih =>
    have hlength : min (dir.names.length - 1 - n) (dir.names.length - 1) =
        dir.names.length - (n + 1) := by omega
    rw [List.replicate_succ, walk, List.foldl_cons]
    change walk (step dir .up) _ = _
    rw [ih, step, List.length_dropLast, List.dropLast_eq_take, List.take_take, hlength]

def steps (above below : List Name) : List Component :=
  List.replicate above.length .up ++ below.map .name

theorem isStep_of_mem {above below : List Name} : ∀ c ∈ steps above below, c.IsStep := by
  intro c hc
  rcases List.mem_append.mp hc with hup | hname
  · rw [(List.mem_replicate.mp hup).2]
    exact ⟨by decide, by decide⟩
  · obtain ⟨n, -, rfl⟩ := List.mem_map.mp hname
    exact ⟨by simp, by simp⟩

theorem join_steps (dir : CanonicalPath) (above below : List Name) :
    dir.join (Path.ofComponents (steps above below)) =
      ⟨dir.rooted, dir.names.take (dir.names.length - above.length) ++ below⟩ := by
  rw [join, Path.ofComponents_components isStep_of_mem, steps, walk_append, walk_up, walk_names]

theorem relativeTo_apart {above below : List Name} (hapart : Apart above below)
    (shared : List Name) :
    relativeTo ⟨true, shared ++ below⟩ ⟨true, shared ++ above⟩ =
      Path.ofComponents (steps above below) := by
  rw [relativeTo, Path.relativeTo, toPath_components, toPath_components, components, components,
    if_pos rfl, List.singleton_append, List.singleton_append, List.head?_cons, List.head?_cons,
    if_pos rfl, Component.route, if_pos rfl, Component.route_apart hapart]
  rfl

theorem relativeTo_eq_steps {base p : CanonicalPath} (hbase : base.rooted = true)
    (hp : p.rooted = true) :
    ∃ shared above below, base.names = shared ++ above ∧ p.names = shared ++ below ∧
      Apart above below ∧ p.relativeTo base = Path.ofComponents (steps above below) := by
  obtain ⟨shared, above, below, hsource, htarget, hapart⟩ := exists_apart base.names p.names
  refine ⟨shared, above, below, hsource, htarget, hapart, ?_⟩
  obtain ⟨rooted, names⟩ := base
  obtain ⟨rooted', names'⟩ := p
  dsimp only at hsource htarget hbase hp
  rw [hsource, htarget, hbase, hp, relativeTo_apart hapart]

theorem join_relativeTo {base p : CanonicalPath} (hbase : base.rooted = true)
    (hp : p.rooted = true) : base.join (p.relativeTo base) = p := by
  obtain ⟨shared, above, below, hsource, htarget, -, hway⟩ := relativeTo_eq_steps hbase hp
  rw [hway, join_steps, hsource, List.length_append, Nat.add_sub_cancel, List.take_left,
    ← htarget, hbase, ← hp]

def sharedDepth (p q : CanonicalPath) : Nat :=
  ((p.names.zip q.names).takeWhile fun ab => ab.1 = ab.2).length

theorem sharedDepth_apart {p q : CanonicalPath} {shared above below : List Name}
    (hapart : Apart above below) (hp : p.names = shared ++ above) (hq : q.names = shared ++ below) :
    p.sharedDepth q = shared.length := by
  rw [sharedDepth, hp, hq]
  clear hp hq
  induction shared with
  | nil =>
    cases above with
    | nil => rfl
    | cons a above =>
      cases below with
      | nil => rfl
      | cons b below =>
        have hab : a ≠ b := hapart a rfl b rfl
        simp [hab]
  | cons n shared ih => simpa using ih

/-- The way climbs over the names of the directory behind those that are shared, and goes down the
names of the path behind them. -/
theorem relativeTo_eq_drop {base p : CanonicalPath} (hbase : base.rooted = true)
    (hp : p.rooted = true) :
    p.relativeTo base = Path.ofComponents
      (steps (base.names.drop (base.sharedDepth p)) (p.names.drop (base.sharedDepth p))) := by
  obtain ⟨shared, above, below, hsource, htarget, hapart, hway⟩ := relativeTo_eq_steps hbase hp
  rw [hway, sharedDepth_apart hapart hsource htarget, hsource, htarget, List.drop_left,
    List.drop_left]

/-- A way leads from its directory to its path, so no other path has this way. It is one climb for
each name of the directory that the path does not share and then the names of the path that are
left, with single separators between them. -/
theorem relativeTo_exact {base p : CanonicalPath} (hbase : base.rooted = true) (hp : p.rooted = true) :
    let shared := base.sharedDepth p
    base.join (p.relativeTo base) = p ∧
    (p.relativeTo base).components = List.replicate (base.depth - shared) .up ++
      (p.names.drop shared).map .name ∧
    (p.relativeTo base).text.toList =
      joinSegments ((p.relativeTo base).components.map Component.chars) ∧
    ∀ q : CanonicalPath, q.rooted = true →
      (q.relativeTo base).components = (p.relativeTo base).components → q = p := by
  intro shared
  have hway := relativeTo_eq_drop hbase hp
  have hsteps : (p.relativeTo base).components =
      steps (base.names.drop shared) (p.names.drop shared) := by
    rw [hway, Path.ofComponents_components isStep_of_mem]
  refine ⟨join_relativeTo hbase hp, ?_, ?_, fun q hq hsame => ?_⟩
  · rw [hsteps, steps, List.length_drop]
    rfl
  · rw [hsteps, hway]
    exact Path.ofComponents_chars isStep_of_mem
  · -- Where a way leads is read off its components.
    calc q = base.walk (q.relativeTo base).components := (join_relativeTo hbase hq).symm
      _ = base.walk (p.relativeTo base).components := by rw [hsame]
      _ = p := join_relativeTo hbase hp

theorem relativeTo_exact_beside :
    let base : CanonicalPath := ⟨true, [⟨"w", by decide⟩, ⟨"src", by decide⟩]⟩
    let p : CanonicalPath := ⟨true, [⟨"w", by decide⟩, ⟨"lib", by decide⟩, ⟨"a.ts", by decide⟩]⟩
    let anchor : CanonicalPath := ⟨true, []⟩
    base.rooted = true ∧ p.rooted = true ∧ anchor.rooted = true ∧
      (p.relativeTo base).components = [.up, .name ⟨"lib", by decide⟩, .name ⟨"a.ts", by decide⟩] ∧
      (base.relativeTo base).components = [] ∧
      (anchor.relativeTo base).components = [.up, .up] ∧
      (anchor.relativeTo base).components ≠ (p.relativeTo base).components := by
  intro base p anchor
  have hbase : base.rooted = true := rfl
  have hp : p.rooted = true := rfl
  obtain ⟨-, hbeside, -, honly⟩ := relativeTo_exact hbase hp
  obtain ⟨-, hself, -, -⟩ := relativeTo_exact hbase hbase
  obtain ⟨-, habove, -, -⟩ := relativeTo_exact hbase (show anchor.rooted = true from rfl)
  exact ⟨hbase, hp, rfl, hbeside.trans (by decide), hself.trans (by decide),
    habove.trans (by decide), fun hsame => absurd (honly anchor rfl hsame) (by decide)⟩

end CanonicalPath

end Rebuild
