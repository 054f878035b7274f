import Rebuild.Disk.Follow
import Rebuild.Proofs.Disk.Places

/-!
# The walk of a path

A path is walked one component after the other, from the root. A climb goes to
the real parent. Where a link is met, the components of its target come before
those that are left, and the walk goes on from the directory that holds the
link. It never goes back, and it may meet any number of links. A walk that
comes round to what it had to do before never ends.
-/

set_option autoImplicit false

namespace Rebuild

structure Trek where
  place : List Name
  pending : List Component

inductive Stride where
  | over (result : Except FollowError (List Name))
  | on (next : Trek)
  | link (place : List Name) (next : Trek)

def Trek.before (t : Trek) (rest : List Component) : Trek := ⟨t.place, t.pending ++ rest⟩

def Stride.before : Stride → List Component → Stride
  | .over result, _ => .over result
  | .on next, rest => .on (next.before rest)
  | .link place next, rest => .link place (next.before rest)

def Stride.LeadsTo : Stride → Trek → Prop
  | .over _, _ => False
  | .on next, t => next = t
  | .link _ next, t => next = t

namespace Disk

/-- Takes one component. The first component of an absolute target is the root. -/
def stride (d : Disk) : Trek → Stride
  | ⟨place, []⟩ => .over (.ok place)
  | ⟨_, .root :: rest⟩ => .on ⟨[], rest⟩
  | ⟨place, .here :: rest⟩ => .on ⟨place, rest⟩
  | ⟨place, .up :: rest⟩ => .on ⟨place.dropLast, rest⟩
  | ⟨place, .name n :: rest⟩ =>
    match d.look place n with
    | .error .notFound => .over (.error (.missing (pathTo (place ++ [n]))))
    | .error e => .over (.error (.uninspectable (pathTo (place ++ [n])) e))
    | .ok (.link target) => .link (place ++ [n]) ⟨place, target.components ++ rest⟩
    | .ok _ => .on ⟨place ++ [n], rest⟩

/-- A walk comes from one point to another and meets so many links on the way. -/
inductive Reaches (d : Disk) : Nat → Trek → Trek → Prop
  | refl (t : Trek) : d.Reaches 0 t t
  | on {links : Nat} {t u v : Trek} (hstep : d.stride t = .on u) (hrun : d.Reaches links u v) :
      d.Reaches links t v
  | link {links : Nat} {t u v : Trek} {place : List Name} (hstep : d.stride t = .link place u)
      (hrun : d.Reaches links u v) : d.Reaches (links + 1) t v

def Ends (d : Disk) (links : Nat) (t : Trek) (result : Except FollowError (List Name)) : Prop :=
  ∃ u, d.Reaches links t u ∧ d.stride u = .over result

def MeetsAfter (d : Disk) (links : Nat) (t : Trek) (place : List Name) : Prop :=
  ∃ u v, d.Reaches links t u ∧ d.stride u = .link place v

variable {d : Disk}

theorem stride_before {t : Trek} (hne : t.pending ≠ []) (rest : List Component) :
    d.stride (t.before rest) = (d.stride t).before rest := by
  obtain ⟨place, pending⟩ := t
  cases pending with
  | nil => exact absurd rfl hne
  | cons c cs =>
    cases c with
    | root => rfl
    | here => rfl
    | up => rfl
    | name n =>
      simp only [Trek.before, List.cons_append, stride]
      cases d.look place n with
      | error e => cases e <;> rfl
      | ok e =>
        cases e with
        | link target => simp [Stride.before, Trek.before]
        | file data => rfl
        | directory => rfl

namespace Reaches

variable {links more : Nat} {t u v : Trek}

theorem trans (h : d.Reaches links t u) (hmore : d.Reaches more u v) :
    d.Reaches (links + more) t v := by
  induction h with
  | refl t =>
    rw [Nat.zero_add]
    exact hmore
  | on hstep _ ih => exact .on hstep (ih hmore)
  | link hstep _ ih =>
    rw [Nat.add_right_comm]
    exact .link hstep (ih hmore)

theorem of_over {result : Except FollowError (List Name)} (hover : d.stride t = .over result)
    (h : d.Reaches links t u) : links = 0 ∧ u = t := by
  cases h with
  | refl => exact ⟨rfl, rfl⟩
  | on hstep _ =>
    rw [hover] at hstep
    cases hstep
  | link hstep _ =>
    rw [hover] at hstep
    cases hstep

theorem of_link {place : List Name} {w : Trek} (hlink : d.stride t = .link place w)
    (h : d.Reaches links t u) : links = 0 ∧ u = t ∨ 0 < links := by
  cases h with
  | refl => exact Or.inl ⟨rfl, rfl⟩
  | on hstep _ =>
    rw [hlink] at hstep
    cases hstep
  | link _ _ => exact Or.inr (Nat.succ_pos _)

/-- A walk has one way only, so of two points on it one is behind the other. -/
theorem linear (hu : d.Reaches links t u) (hv : d.Reaches more t v) :
    (∃ k, more = links + k ∧ d.Reaches k u v) ∨ ∃ k, links = more + k ∧ d.Reaches k v u := by
  induction hu generalizing more with
  | refl t => exact Or.inl ⟨more, (Nat.zero_add more).symm, hv⟩
  | @on links t w u hstep hrun ih =>
    cases hv with
    | refl => exact Or.inr ⟨links, (Nat.zero_add links).symm, .on hstep hrun⟩
    | on hstep' hrun' =>
      rw [hstep] at hstep'
      cases hstep'
      exact ih hrun'
    | link hstep' _ =>
      rw [hstep] at hstep'
      cases hstep'
  | @link links t w u place hstep hrun ih =>
    cases hv with
    | refl => exact Or.inr ⟨links + 1, (Nat.zero_add _).symm, .link hstep hrun⟩
    | on hstep' _ =>
      rw [hstep] at hstep'
      cases hstep'
    | link hstep' hrun' =>
      rw [hstep] at hstep'
      cases hstep'
      rcases ih hrun' with ⟨k, rfl, hk⟩ | ⟨k, rfl, hk⟩
      · exact Or.inl ⟨k, Nat.add_right_comm .., hk⟩
      · exact Or.inr ⟨k, Nat.add_right_comm .., hk⟩

theorem before (h : d.Reaches links t u) (rest : List Component) :
    d.Reaches links (t.before rest) (u.before rest) := by
  have hpending {t : Trek} (hover : ∀ result, d.stride t ≠ .over result) : t.pending ≠ [] := by
    intro hnil
    obtain ⟨place, pending⟩ := t
    exact hover (.ok place) (by rw [show pending = [] from hnil, stride])
  induction h with
  | refl t => exact .refl _
  | @on links t u v hstep _ ih =>
    have hnext : d.stride (t.before rest) = .on (u.before rest) := by
      rw [stride_before (hpending (by simp [hstep])), hstep]
      rfl
    exact .on hnext ih
  | @link links t u v place hstep _ ih =>
    have hnext : d.stride (t.before rest) = .link place (u.before rest) := by
      rw [stride_before (hpending (by simp [hstep])), hstep]
      rfl
    exact .link hnext ih

theorem round {extra : List Component} (h : d.Reaches links t (t.before extra)) (times : Nat) :
    ∃ rest, d.Reaches (times * links) t (t.before rest) := by
  induction times with
  | zero =>
    have hnil : t.before [] = t := by simp [Trek.before]
    refine ⟨[], ?_⟩
    rw [Nat.zero_mul, hnil]
    exact .refl t
  | succ times ih =>
    obtain ⟨rest, hrun⟩ := ih
    have hnext : (t.before extra).before rest = t.before (extra ++ rest) := by
      simp [Trek.before]
    refine ⟨extra ++ rest, ?_⟩
    rw [Nat.succ_mul, ← hnext]
    exact hrun.trans (h.before rest)

theorem meetsAfter (h : d.Reaches more t u) (hlinks : links < more) :
    ∃ place, d.MeetsAfter links t place := by
  induction h generalizing links with
  | refl t => cases hlinks
  | on hstep _ ih =>
    obtain ⟨place, v, w, hrun, hlink⟩ := ih hlinks
    exact ⟨place, v, w, .on hstep hrun, hlink⟩
  | @link more t u v place hstep _ ih =>
    cases links with
    | zero => exact ⟨place, t, u, .refl t, hstep⟩
    | succ links =>
      obtain ⟨place, v, w, hrun, hlink⟩ := ih (Nat.lt_of_succ_lt_succ hlinks)
      exact ⟨place, v, w, .link hstep hrun, hlink⟩

end Reaches

theorem Ends.unique {links more : Nat} {t : Trek} {r s : Except FollowError (List Name)}
    (hr : d.Ends links t r) (hs : d.Ends more t s) : links = more ∧ r = s := by
  obtain ⟨u, hu, hover⟩ := hr
  obtain ⟨v, hv, hover'⟩ := hs
  rcases hu.linear hv with ⟨k, rfl, hk⟩ | ⟨k, rfl, hk⟩
  · obtain ⟨rfl, rfl⟩ := hk.of_over hover
    rw [hover] at hover'
    cases hover'
    exact ⟨rfl, rfl⟩
  · obtain ⟨rfl, rfl⟩ := hk.of_over hover'
    rw [hover'] at hover
    cases hover
    exact ⟨rfl, rfl⟩

theorem MeetsAfter.unique {links : Nat} {t : Trek} {p q : List Name}
    (hp : d.MeetsAfter links t p) (hq : d.MeetsAfter links t q) : p = q := by
  obtain ⟨u, u', hu, hlink⟩ := hp
  obtain ⟨v, v', hv, hlink'⟩ := hq
  have hsame : u = v := by
    rcases hu.linear hv with ⟨k, hk, hrun⟩ | ⟨k, hk, hrun⟩
    · rcases hrun.of_link hlink with ⟨-, hsame⟩ | hpos
      · exact hsame.symm
      · omega
    · rcases hrun.of_link hlink' with ⟨-, hsame⟩ | hpos
      · exact hsame
      · omega
  rw [hsame, hlink'] at hlink
  cases hlink
  rfl

theorem Ends.lt_of_meetsAfter {links more : Nat} {t : Trek} {place : List Name}
    {r : Except FollowError (List Name)} (hr : d.Ends more t r)
    (hm : d.MeetsAfter links t place) : links < more := by
  obtain ⟨u, hu, hover⟩ := hr
  obtain ⟨v, w, hv, hlink⟩ := hm
  rcases hu.linear hv with ⟨k, rfl, hrun⟩ | ⟨k, rfl, hrun⟩
  · obtain ⟨-, rfl⟩ := hrun.of_over hover
    rw [hover] at hlink
    cases hlink
  · rcases hrun.of_link hlink with ⟨-, rfl⟩ | hpos
    · rw [hover] at hlink
      cases hlink
    · omega

theorem Reaches.past_link {links : Nat} {t u v w : Trek} {place : List Name}
    (hrun : d.Reaches 0 t u) (hlink : d.stride u = .link place v) (h : d.Reaches links v w) :
    d.Reaches (links + 1) t w := by
  have hall := hrun.trans (.link hlink h)
  rw [Nat.zero_add] at hall
  exact hall

theorem Ends.on {links : Nat} {t u : Trek} {r : Except FollowError (List Name)}
    (h : d.Ends links u r) (hstep : d.stride t = .on u) : d.Ends links t r := by
  obtain ⟨v, hrun, hover⟩ := h
  exact ⟨v, .on hstep hrun, hover⟩

theorem Ends.link {links : Nat} {t u v : Trek} {place : List Name}
    {r : Except FollowError (List Name)} (h : d.Ends links v r) (hrun : d.Reaches 0 t u)
    (hlink : d.stride u = .link place v) : d.Ends (links + 1) t r := by
  obtain ⟨w, hv, hover⟩ := h
  exact ⟨w, hrun.past_link hlink hv, hover⟩

theorem MeetsAfter.link {links : Nat} {t u v : Trek} {place next : List Name}
    (h : d.MeetsAfter links v next) (hrun : d.Reaches 0 t u)
    (hlink : d.stride u = .link place v) : d.MeetsAfter (links + 1) t next := by
  obtain ⟨w, x, hv, hnext⟩ := h
  exact ⟨w, x, hrun.past_link hlink hv, hnext⟩

theorem Reaches.meetsAfter_of_round {links cycle : Nat} {start t : Trek}
    {extra rest : List Component} (h : d.Reaches links start (t.before rest))
    (hround : d.Reaches cycle t (t.before extra)) (hcycle : 0 < cycle) (bound : Nat) :
    ∃ place, d.MeetsAfter bound start place := by
  obtain ⟨more, hrounds⟩ := hround.round (bound + 1)
  have hbound : bound < links + (bound + 1) * cycle := by
    have := Nat.le_mul_of_pos_right (bound + 1) hcycle
    omega
  exact (h.trans (hrounds.before rest)).meetsAfter hbound

theorem stride_physical {t u : Trek} (h : d.Physical t.place) (hstep : (d.stride t).LeadsTo u) :
    d.Physical u.place := by
  obtain ⟨place, pending⟩ := t
  cases pending with
  | nil => cases hstep
  | cons c rest =>
    cases c with
    | root =>
      cases hstep
      exact Physical.root d
    | here =>
      cases hstep
      exact h
    | up =>
      cases hstep
      exact h.parent
    | name n =>
      rw [stride] at hstep
      cases hlook : d.look place n with
      | error e =>
        rw [hlook] at hstep
        cases e <;> cases hstep
      | ok e =>
        rw [hlook] at hstep
        cases e with
        | link target =>
          cases hstep
          exact h
        | file data =>
          cases hstep
          exact h.child hlook rfl
        | directory =>
          cases hstep
          exact h.child hlook rfl

theorem Reaches.physical {links : Nat} {t u : Trek} (hrun : d.Reaches links t u)
    (h : d.Physical t.place) : d.Physical u.place := by
  induction hrun with
  | refl => exact h
  | on hstep _ ih => exact ih (stride_physical h (by rw [hstep]; rfl))
  | link hstep _ ih => exact ih (stride_physical h (by rw [hstep]; rfl))

theorem place_of_stride {t : Trek} {place : List Name} (h : d.stride t = .over (.ok place)) :
    t.place = place := by
  obtain ⟨start, pending⟩ := t
  cases pending with
  | nil => simpa [stride] using h
  | cons c rest =>
    cases c with
    | root => simp [stride] at h
    | here => simp [stride] at h
    | up => simp [stride] at h
    | name n =>
      cases hlook : d.look start n with
      | error e => cases e <;> simp [stride, hlook] at h
      | ok e => cases e <;> simp [stride, hlook] at h

theorem Ends.physical {links : Nat} {t : Trek} {place : List Name}
    (h : d.Ends links t (.ok place)) (hstart : d.Physical t.place) : d.Physical place := by
  obtain ⟨u, hrun, hover⟩ := h
  rw [← place_of_stride hover]
  exact hrun.physical hstart

end Disk

end Rebuild
