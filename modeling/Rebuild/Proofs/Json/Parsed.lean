import Rebuild.Proofs.Json.Legible

/-!
# Values that were read

A value that was read is legible: each number fits, the members of each object
are in the order of their keys, and a container stands only where there is room
for it.
-/

set_option autoImplicit false

namespace Rebuild.Json

namespace Document

variable {room : Nat}

theorem exists_items {items : List Document} {v : Json}
    (h : (Document.array items).toJson? room = some v) :
    ∃ less vs, room = less + 1 ∧ itemsToJson? less items = some vs ∧ v = .array vs := by
  cases room with
  | zero => cases h
  | succ less =>
    obtain ⟨vs, hvs, rfl⟩ := Option.map_eq_some_iff.mp h
    exact ⟨less, vs, rfl, hvs, rfl⟩

theorem exists_members {entries : Entries} {v : Json}
    (h : (Document.object entries).toJson? room = some v) :
    ∃ less members, room = less + 1 ∧ entriesToJson? less [] entries = some members ∧
      v = .object members := by
  cases room with
  | zero => cases h
  | succ less =>
    obtain ⟨members, hmembers, rfl⟩ := Option.map_eq_some_iff.mp h
    exact ⟨less, members, rfl, hmembers, rfl⟩

theorem itemsToJson?_forall {P : Json → Prop} {items : List Document}
    (h : ∀ d ∈ items, ∀ v, d.toJson? room = some v → P v) {vs : List Json}
    (hvs : itemsToJson? room items = some vs) : ∀ v ∈ vs, P v := by
  induction items generalizing vs with
  | nil =>
    cases hvs
    exact List.forall_mem_nil _
  | cons d rest ih =>
    obtain ⟨v, hv, hrest⟩ := Option.bind_eq_some_iff.mp hvs
    obtain ⟨ws, hws, hcons⟩ := Option.bind_eq_some_iff.mp hrest
    cases hcons
    exact List.forall_mem_cons.mpr ⟨h d (List.mem_cons_self ..) v hv,
      ih (fun e he => h e (List.mem_cons_of_mem _ he)) hws⟩

theorem entriesToJson?_legible {entries : Entries}
    (h : ∀ m ∈ entries, ∀ v, m.2.toJson? room = some v → Legible room v) {before members : Members}
    (hbefore : Legible (room + 1) (.object before))
    (hmembers : entriesToJson? room before entries = some members) :
    Legible (room + 1) (.object members) := by
  induction entries generalizing before with
  | nil =>
    cases hmembers
    exact hbefore
  | cons m rest ih =>
    obtain ⟨key, -, hkey⟩ := Option.bind_eq_some_iff.mp hmembers
    obtain ⟨v, hv, hrest⟩ := Option.bind_eq_some_iff.mp hkey
    exact ih (fun e he => h e (List.mem_cons_of_mem _ he))
      (hbefore.setMember key (h m (List.mem_cons_self ..) v hv)) hrest

theorem toJson?_legible {d : Document} {v : Json} (h : d.toJson? room = some v) :
    Legible room v := by
  induction d using Document.induct generalizing room v with
  | null =>
    cases h
    exact .null room
  | bool b =>
    cases h
    exact .bool room b
  | number n => exact (Number.toJson?_fits h).legible room
  | text units =>
    obtain ⟨s, -, rfl⟩ := Option.map_eq_some_iff.mp h
    exact .string room s
  | array items ih =>
    obtain ⟨room, vs, rfl, hvs, rfl⟩ := exists_items h
    exact .array (itemsToJson?_forall (fun d hd v hv => ih d hd hv) hvs)
  | object entries ih =>
    obtain ⟨room, members, rfl, hmembers, rfl⟩ := exists_members h
    exact entriesToJson?_legible (fun m hm v hv => ih m hm hv)
      (.object List.Pairwise.nil (List.forall_mem_nil _)) hmembers

end Document

theorem parse?_legible {s : String} {v : Json} (h : parse? s = some v) :
    Legible Document.maxDepth v := by
  obtain ⟨d, -, hv⟩ := Option.bind_eq_some_iff.mp h
  exact Document.toJson?_legible hv

end Rebuild.Json
