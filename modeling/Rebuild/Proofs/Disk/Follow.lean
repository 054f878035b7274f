import Rebuild.Disk.Edit
import Rebuild.Proofs.Disk.Walk

/-!
# Following a path

Following starts again from the root behind every link. The way to the link is
physical, so going there again finds the same entries, meets no link and costs
nothing. So following a path is the walk of the path, up to the bound on the
links. The path it comes to is physical and leads to itself.
-/

set_option autoImplicit false

namespace Rebuild

namespace Disk

variable {d : Disk} {place : List Name}

/-- What taking components up to the first link has to do with the walk. -/
def Advance.Follows (d : Disk) (t : Trek) : Advance → Prop
  | .arrived real => ∃ place, real = pathTo place ∧ d.Ends 0 t (.ok place)
  | .failed e => d.Ends 0 t (.error e)
  | .link candidate directory target rest =>
    ∃ place n u, candidate = pathTo (place ++ [n]) ∧ directory = pathTo place ∧
      d.Physical place ∧ d.Reaches 0 t u ∧
      d.stride u = .link (place ++ [n]) ⟨place, target.components ++ rest⟩

theorem Advance.Follows.on {t u : Trek} {a : Advance} (h : a.Follows d u)
    (hstep : d.stride t = .on u) : a.Follows d t := by
  cases a with
  | arrived real =>
    obtain ⟨place, hreal, hends⟩ := h
    exact ⟨place, hreal, hends.on hstep⟩
  | failed e => exact Ends.on h hstep
  | link candidate directory target rest =>
    obtain ⟨place, n, v, hcandidate, hdirectory, hplace, hrun, hlink⟩ := h
    exact ⟨place, n, v, hcandidate, hdirectory, hplace, .on hstep hrun, hlink⟩

theorem advance_root (d : Disk) (real : Path) (rest : List Component) :
    d.advance real (.root :: rest) = d.advance (pathTo []) rest := by
  have habs : Path.isAbsolute ⟨Component.root.text⟩ = true := by decide
  rw [advance, Path.join_of_isAbsolute real habs]
  rfl

theorem advance_up (d : Disk) (place : List Name) (rest : List Component) :
    d.advance (pathTo place) (.up :: rest) = d.advance (pathTo place.dropLast) rest := by
  rw [advance, pathTo, CanonicalPath.toPath_parent?, CanonicalPath.parent?]
  by_cases hnil : place = []
  · subst hnil
    rfl
  · rw [if_neg hnil]
    rfl

theorem advance_name (h : d.Physical place) (n : Name) (rest : List Component) :
    d.advance (pathTo place) (.name n :: rest) =
      match d.look place n with
      | .error .notFound => .failed (.missing (pathTo (place ++ [n])))
      | .error e => .failed (.uninspectable (pathTo (place ++ [n])) e)
      | .ok (.link target) => .link (pathTo (place ++ [n])) (pathTo place) target rest
      | .ok _ => d.advance (pathTo (place ++ [n])) rest := by
  have hjoin : (pathTo place).join ⟨n.text⟩ = pathTo (place ++ [n]) :=
    CanonicalPath.toPath_join_name true place n
  have hinspect : d.inspect (pathTo (place ++ [n])) = d.look place n := inspect_child h n
  rw [advance]
  cases hlook : d.look place n with
  | error e => cases e <;> simp only [hjoin, hinspect, hlook]
  | ok e => cases e <;> simp only [hjoin, hinspect, hlook]

theorem advance_follows (h : d.Physical place) (cs : List Component) :
    (d.advance (pathTo place) cs).Follows d ⟨place, cs⟩ := by
  induction cs generalizing place with
  | nil => exact ⟨place, rfl, ⟨place, []⟩, .refl _, rfl⟩
  | cons c rest ih =>
    cases c with
    | root =>
      rw [advance_root]
      exact (ih (Physical.root d)).on rfl
    | here => exact (ih h).on rfl
    | up =>
      rw [advance_up]
      exact (ih h.parent).on rfl
    | name n =>
      rw [advance_name h]
      cases hlook : d.look place n with
      | error e => cases e <;> exact ⟨⟨place, .name n :: rest⟩, .refl _, by simp [stride, hlook]⟩
      | ok e =>
        cases e with
        | link target =>
          exact ⟨place, n, ⟨place, .name n :: rest⟩, rfl, rfl, h, .refl _, by simp [stride, hlook]⟩
        | file data => exact (ih (h.child hlook rfl)).on (by simp [stride, hlook])
        | directory => exact (ih (h.child hlook rfl)).on (by simp [stride, hlook])

theorem advance_names (h : d.Physical place) (rest : List Component) :
    d.advance (pathTo []) (place.map .name ++ rest) = d.advance (pathTo place) rest := by
  induction place using List.reverseRecOn generalizing rest with
  | nil => rfl
  | append_singleton place n ih =>
    have hplace := h.initial <| List.prefix_append place [n]
    obtain ⟨e, hlook, he⟩ := h.last
    rw [List.map_append, List.append_assoc, ih hplace, List.map_singleton, List.singleton_append,
      advance_name hplace, hlook]
    cases e with
    | link target => cases he
    | file data => rfl
    | directory => rfl

theorem advance_dropHere (d : Disk) (real : Path) (cs rest : List Component) :
    d.advance real (Component.dropHere cs ++ rest) = d.advance real (cs ++ rest) := by
  cases cs with
  | nil => rfl
  | cons c cs => cases c <;> rfl

/-- Starting again from the root at a target is going on from the directory of the link. -/
theorem advance_restart (h : d.Physical place) (target : Path) (rest : List Component) :
    d.advance ⟨""⟩ (((pathTo place).join target).components ++ rest) =
      d.advance (pathTo place) (target.components ++ rest) := by
  cases habs : target.isAbsolute with
  | true =>
    obtain ⟨more, hmore⟩ := Path.components_of_isAbsolute habs
    rw [Path.join_of_isAbsolute _ habs, hmore, List.cons_append, advance_root, advance_root]
  | false =>
    have htext : (pathTo place).text ≠ "" := by
      intro htext
      have hroot : (pathTo place).isAbsolute = true := CanonicalPath.toPath_isAbsolute _
      simp [Path.isAbsolute, htext] at hroot
    rw [Path.join_components _ habs htext, pathTo_components, List.append_assoc, List.cons_append,
      advance_root, advance_names h, advance_dropHere]

/-- With so many links to go, following ends as the walk ends or where the walk meets one link
more. -/
theorem followFrom_walks (hops : Nat) {place : List Name} {cs full : List Component}
    (h : d.Physical place) (hfull : d.advance ⟨""⟩ full = d.advance (pathTo place) cs) :
    (∃ links result, links ≤ hops ∧ d.Ends links ⟨place, cs⟩ result ∧
      d.followFrom hops full = result.map pathTo) ∨
    ∃ q, d.MeetsAfter hops ⟨place, cs⟩ q ∧
      d.followFrom hops full = .error (.tooManyLinks (pathTo q)) := by
  have hwalks := advance_follows h cs
  rw [← hfull] at hwalks
  rw [followFrom.eq_def]
  dsimp only
  cases hadvance : d.advance ⟨""⟩ full with
  | arrived real =>
    rw [hadvance] at hwalks
    obtain ⟨q, rfl, hends⟩ := hwalks
    exact Or.inl ⟨0, .ok q, Nat.zero_le _, hends, rfl⟩
  | failed e =>
    rw [hadvance] at hwalks
    exact Or.inl ⟨0, .error e, Nat.zero_le _, hwalks, rfl⟩
  | link candidate directory target rest =>
    rw [hadvance] at hwalks
    obtain ⟨q, n, u, rfl, rfl, hq, hrun, hlink⟩ := hwalks
    cases hops with
    | zero => exact Or.inr ⟨q ++ [n], ⟨u, _, hrun, hlink⟩, rfl⟩
    | succ hops =>
      rcases followFrom_walks hops hq (advance_restart hq target rest) with
        ⟨links, result, hlinks, hends, hresult⟩ | ⟨p, hmeets, hresult⟩
      · exact Or.inl ⟨links + 1, result, Nat.succ_le_succ hlinks, hends.link hrun hlink, hresult⟩
      · exact Or.inr ⟨p, hmeets.link hrun hlink, hresult⟩

theorem follow_walks (d : Disk) {p : Path} (hp : p.isAbsolute = true) :
    (∃ links result, links ≤ maxHops ∧ d.Ends links ⟨[], p.components⟩ result ∧
      d.follow p = result.map pathTo) ∨
    ∃ q, d.MeetsAfter maxHops ⟨[], p.components⟩ q ∧
      d.follow p = .error (.tooManyLinks (pathTo q)) := by
  obtain ⟨rest, hrest⟩ := Path.components_of_isAbsolute hp
  apply followFrom_walks maxHops (Physical.root d)
  rw [hrest, advance_root, advance_root]

theorem follow_of_ends {p : Path} (hp : p.isAbsolute = true) {links : Nat}
    {result : Except FollowError (List Name)} (hlinks : links ≤ maxHops)
    (hends : d.Ends links ⟨[], p.components⟩ result) : d.follow p = result.map pathTo := by
  rcases d.follow_walks hp with ⟨_, result', -, hends', h⟩ | ⟨q, hmeets, -⟩
  · obtain ⟨-, rfl⟩ := hends.unique hends'
    exact h
  · exact absurd (hends.lt_of_meetsAfter hmeets) (by omega)

theorem follow_of_meetsAfter {p : Path} (hp : p.isAbsolute = true) {place : List Name}
    (hmeets : d.MeetsAfter maxHops ⟨[], p.components⟩ place) :
    d.follow p = .error (.tooManyLinks (pathTo place)) := by
  rcases d.follow_walks hp with ⟨links, result, hlinks, hends, -⟩ | ⟨q, hmeets', h⟩
  · exact absurd (hends.lt_of_meetsAfter hmeets) (by omega)
  · rw [hmeets.unique hmeets']
    exact h

theorem exists_place {p r : Path} (hp : p.isAbsolute = true) (h : d.follow p = .ok r) :
    ∃ place, r = pathTo place ∧ d.Physical place := by
  rcases d.follow_walks hp with ⟨links, result, -, hends, hresult⟩ | ⟨q, -, hresult⟩
  · rw [h] at hresult
    cases result with
    | error e => cases hresult
    | ok place =>
      cases hresult
      exact ⟨place, rfl, hends.physical (Physical.root d)⟩
  · rw [h] at hresult
    cases hresult

/-- Following is the walk of the path with a bound on the links. If the walk ends after at most
forty of them, following ends with the same place or the same error. If the walk meets one more,
following gives up there. One of the two is so, and it is the second one if the walk comes round
to what it had to do before and has met a link in between. -/
theorem follow_eq_walk (d : Disk) (p : Path) (hp : p.isAbsolute = true) :
    let start : Trek := ⟨[], p.components⟩
    (∀ links result, links ≤ 40 → d.Ends links start result →
      d.follow p = result.map pathTo) ∧
    (∀ place, d.MeetsAfter 40 start place →
      d.follow p = .error (.tooManyLinks (pathTo place))) ∧
    ((∃ links result, links ≤ 40 ∧ d.Ends links start result) ∨
      ∃ place, d.MeetsAfter 40 start place) ∧
    (∀ links (t : Trek) rest cycle extra, d.Reaches links start (t.before rest) → 0 < cycle →
      d.Reaches cycle t (t.before extra) →
      ∃ place, d.follow p = .error (.tooManyLinks (pathTo place))) := by
  intro start
  refine ⟨fun _ _ hlinks hends => follow_of_ends hp hlinks hends,
    fun _ hmeets => follow_of_meetsAfter hp hmeets, ?_, ?_⟩
  · rcases d.follow_walks hp with ⟨links, result, hlinks, hends, -⟩ | ⟨place, hmeets, -⟩
    · exact Or.inl ⟨links, result, hlinks, hends⟩
    · exact Or.inr ⟨place, hmeets⟩
  · intro links t rest cycle extra hrun hcycle hround
    obtain ⟨place, hmeets⟩ := hrun.meetsAfter_of_round hround hcycle maxHops
    exact ⟨place, follow_of_meetsAfter hp hmeets⟩

/-- A tree in which `/shortcut` leads to `/a/real`, and `/loop` leads to itself. -/
def crossroads : Disk :=
  (((empty.put [⟨"a", by decide⟩] .directory).put [⟨"a", by decide⟩, ⟨"real", by decide⟩]
    .directory).put [⟨"shortcut", by decide⟩] (.link ⟨"/a/real"⟩)).put [⟨"loop", by decide⟩]
    (.link ⟨"./loop/x"⟩)

theorem crossroads_ends :
    crossroads.Ends 1 ⟨[], Path.components ⟨"/shortcut/.."⟩⟩ (.ok [⟨"a", by decide⟩]) := by
  have hlink : crossroads.stride ⟨[], [.name ⟨"shortcut", by decide⟩, .up]⟩ =
      .link [⟨"shortcut", by decide⟩]
        ⟨[], [.root, .name ⟨"a", by decide⟩, .name ⟨"real", by decide⟩, .up]⟩ := by rfl
  have htarget : crossroads.Reaches 0
      ⟨[], [.root, .name ⟨"a", by decide⟩, .name ⟨"real", by decide⟩, .up]⟩
      ⟨[⟨"a", by decide⟩], []⟩ :=
    .on rfl (.on rfl (.on rfl (.on rfl (.refl _))))
  have hcomponents : Path.components ⟨"/shortcut/.."⟩ =
      [.root, .name ⟨"shortcut", by decide⟩, .up] := by rfl
  rw [hcomponents]
  exact ⟨_, .on rfl (.link hlink htarget), rfl⟩

theorem follow_eq_walk_crossroads :
    Path.isAbsolute ⟨"/shortcut/.."⟩ = true ∧ Path.isAbsolute ⟨"/loop"⟩ = true ∧
      crossroads.follow ⟨"/shortcut/.."⟩ = .ok ⟨"/a"⟩ ∧
      ∃ place, crossroads.follow ⟨"/loop"⟩ = .error (.tooManyLinks (pathTo place)) := by
  have hshort : Path.isAbsolute ⟨"/shortcut/.."⟩ = true := by decide
  have hloop : Path.isAbsolute ⟨"/loop"⟩ = true := by decide
  have hstart : crossroads.Reaches 0 ⟨[], [.root, .name ⟨"loop", by decide⟩]⟩
      (Trek.before ⟨[], [.name ⟨"loop", by decide⟩]⟩ []) := .on rfl (.refl _)
  have hround : crossroads.Reaches 1 ⟨[], [.name ⟨"loop", by decide⟩]⟩
      (Trek.before ⟨[], [.name ⟨"loop", by decide⟩]⟩ [.name ⟨"x", by decide⟩]) := by
    have hlink : crossroads.stride ⟨[], [.name ⟨"loop", by decide⟩]⟩ =
        .link [⟨"loop", by decide⟩]
          ⟨[], [.here, .name ⟨"loop", by decide⟩, .name ⟨"x", by decide⟩]⟩ := by rfl
    exact .link hlink (.on rfl (.refl _))
  exact ⟨hshort, hloop, (follow_eq_walk crossroads _ hshort).1 1 _ (by decide) crossroads_ends,
    (follow_eq_walk crossroads _ hloop).2.2.2 0 _ [] 1 _ hstart (by decide) hround⟩

/-- Following a place that no link leads to stays there. -/
theorem follow_pathTo (h : d.Physical place) : d.follow (pathTo place) = .ok (pathTo place) := by
  have hadvance : d.advance ⟨""⟩ (pathTo place).components = .arrived (pathTo place) := by
    have hnames := advance_names h []
    rw [List.append_nil] at hnames
    rw [pathTo_components, advance_root, hnames, advance]
  rw [follow, followFrom.eq_def]
  dsimp only
  rw [hadvance]

/-- Following comes to a real path: an absolute one without dots and climbs. Whatever it leads
through is in the tree and is no link, so following it once more changes nothing. -/
theorem follow_real (d : Disk) (p r : Path) (hp : p.isAbsolute = true) (h : d.follow p = .ok r) :
    r.isAbsolute = true ∧
    (∀ s ∈ r.segments, s ≠ ['.'] ∧ s ≠ ['.', '.']) ∧
    (∀ cs, cs <+: r.components → cs ≠ [] → cs ≠ [.root] →
      ∃ place e, cs = .root :: place.map .name ∧ d.entry? place = some e ∧
        d.inspect (Path.ofComponents cs) = .ok e ∧ ∀ target, e ≠ .link target) ∧
    d.follow r = .ok r := by
  obtain ⟨place, rfl, hplace⟩ := exists_place hp h
  refine ⟨CanonicalPath.toPath_isAbsolute _, ?_, ?_, follow_pathTo hplace⟩
  · intro s hs
    rw [pathTo, CanonicalPath.toPath_segments, CanonicalPath.nameSegments] at hs
    by_cases hnil : place = []
    · simp [hnil] at hs
      simp [hs]
    · simp only [if_neg hnil, if_true, List.singleton_append, List.mem_cons, List.mem_map] at hs
      rcases hs with rfl | ⟨n, -, rfl⟩
      · simp
      · exact ⟨n.chars_ne_dot, n.chars_ne_dots⟩
  · intro cs hcs hnil hroot
    rw [pathTo_components] at hcs
    rcases List.prefix_cons_iff.mp hcs with rfl | ⟨names, rfl, hnames⟩
    · exact absurd rfl hnil
    · obtain ⟨q, hq, rfl⟩ := List.prefix_map_iff.mp hnames
      have hne : q ≠ [] := by
        rintro rfl
        exact hroot rfl
      obtain ⟨e, hentry, hinspect, he⟩ := (hplace.initial hq).inspect hne
      refine ⟨q, e, rfl, hentry, hinspect, ?_⟩
      rintro target rfl
      cases he

theorem follow_real_crossroads :
    Path.isAbsolute ⟨"/shortcut/.."⟩ = true ∧
      crossroads.follow ⟨"/shortcut/.."⟩ = .ok ⟨"/a"⟩ ∧
      crossroads.follow ⟨"/a"⟩ = .ok ⟨"/a"⟩ := by
  have hshort : Path.isAbsolute ⟨"/shortcut/.."⟩ = true := by decide
  have hfollow : crossroads.follow ⟨"/shortcut/.."⟩ = .ok ⟨"/a"⟩ :=
    follow_of_ends hshort (by decide) crossroads_ends
  exact ⟨hshort, hfollow, (follow_real crossroads _ _ hshort hfollow).2.2.2⟩

def twoViews : Disk :=
  (empty.put [⟨"real", by decide⟩] .directory).put [⟨"alias", by decide⟩] (.link ⟨"real"⟩)

theorem twoViews_follow :
    twoViews.follow (pathTo [⟨"alias", by decide⟩]) = .ok (pathTo [⟨"real", by decide⟩]) := by
  have hlink : twoViews.stride ⟨[], [.name ⟨"alias", by decide⟩]⟩ =
      .link [⟨"alias", by decide⟩] ⟨[], [.name ⟨"real", by decide⟩]⟩ := by rfl
  have hends : twoViews.Ends 1 ⟨[], (pathTo [⟨"alias", by decide⟩]).components⟩
      (.ok [⟨"real", by decide⟩]) := by
    rw [pathTo_components]
    exact ⟨_, .on rfl (.link hlink (.on rfl (.refl _))), rfl⟩
  exact follow_of_ends (CanonicalPath.toPath_isAbsolute _) (by decide) hends

end Disk

end Rebuild
