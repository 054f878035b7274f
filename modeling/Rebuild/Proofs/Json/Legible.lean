import Rebuild.Proofs.Json.Words

/-!
# Legible values

A value that was read has numbers of a word, its objects list their keys in
order, and its containers are not nested too deep. Written out it can be read
again. It comes back the same but for its floating-point numbers.
-/

set_option autoImplicit false

namespace Rebuild.Json

variable {key : String} {value : Json} {members : Members} {room : Nat}

/-! ## Members in order -/

def Ascending (members : Members) : Prop :=
  members.Pairwise fun a b => compare a.1 b.1 = .lt

theorem setMember_last (h : ∀ m ∈ members, compare m.1 key = .lt) :
    setMember key value members = members ++ [(key, value)] := by
  induction members with
  | nil => rfl
  | cons m members ih =>
    obtain ⟨k, v⟩ := m
    have hk : compare key k = .gt := Std.OrientedCmp.gt_of_lt (h (k, v) (List.mem_cons_self ..))
    rw [setMember, hk]
    exact congrArg _ (ih fun m hm => h m (List.mem_cons_of_mem _ hm))

theorem mem_setMember {m : String × Json} (h : m ∈ setMember key value members) :
    m = (key, value) ∨ m ∈ members := by
  induction members with
  | nil => exact Or.inl (List.mem_singleton.mp h)
  | cons e members ih =>
    obtain ⟨k, v⟩ := e
    rw [setMember] at h
    split at h
    · exact List.mem_cons.mp h
    · exact (List.mem_cons.mp h).imp_right (List.mem_cons_of_mem _)
    · rcases List.mem_cons.mp h with rfl | h
      · exact Or.inr (List.mem_cons_self ..)
      · exact (ih h).imp_right (List.mem_cons_of_mem _)

theorem Ascending.setMember (h : Ascending members) (key : String) (value : Json) :
    Ascending (setMember key value members) := by
  induction members with
  | nil => exact List.pairwise_singleton ..
  | cons e members ih =>
    obtain ⟨k, v⟩ := e
    obtain ⟨hfirst, hrest⟩ := List.pairwise_cons.mp h
    rw [Json.setMember]
    split
    · rename_i hlt
      refine List.pairwise_cons.mpr ⟨fun m hm => ?_, h⟩
      rcases List.mem_cons.mp hm with rfl | hm
      · exact hlt
      · exact Std.TransCmp.lt_trans hlt (hfirst m hm)
    · rename_i heq
      refine List.pairwise_cons.mpr ⟨fun m hm => ?_, hrest⟩
      exact Std.TransCmp.lt_of_eq_of_lt heq (hfirst m hm)
    · rename_i hgt
      refine List.pairwise_cons.mpr ⟨fun m hm => ?_, ih hrest⟩
      rcases mem_setMember hm with rfl | hm
      · exact Std.OrientedCmp.lt_of_gt hgt
      · exact hfirst m hm

theorem setMember_setMember (key : String) (value other : Json) (members : Members) :
    Json.setMember key value (Json.setMember key other members) =
      Json.setMember key value members := by
  induction members with
  | nil => simp [Json.setMember]
  | cons e members ih =>
    obtain ⟨k, v⟩ := e
    rw [Json.setMember, Json.setMember]
    cases h : compare key k with
    | lt | eq => simp [Json.setMember]
    | gt => simp [Json.setMember, h, ih]

theorem member?_setMember_of_ne {other : String} (h : other ≠ key) (value : Json)
    (members : Members) :
    member? other (Json.setMember key value members) = member? other members := by
  induction members with
  | nil => simp [Json.setMember, member?, h.symm]
  | cons e members ih =>
    obtain ⟨k, v⟩ := e
    rw [Json.setMember, member?]
    cases hk : compare key k with
    | lt => simp [member?, h.symm]
    | eq =>
      obtain rfl : key = k := Std.LawfulEqCmp.eq_of_compare hk
      simp [member?, h.symm]
    | gt => simp [member?, ih]

def collect (before members : Members) : Members :=
  members.foldl (fun collected m => setMember m.1 m.2 collected) before

theorem collect_of_ascending {before : Members} (h : Ascending (before ++ members)) :
    collect before members = before ++ members := by
  induction members generalizing before with
  | nil => exact (List.append_nil before).symm
  | cons m rest ih =>
    have hset : Json.setMember m.1 m.2 before = before ++ [m] := setMember_last fun e he =>
      (List.pairwise_append.mp h).2.2 e he m (List.mem_cons_self ..)
    rw [List.append_cons] at h ⊢
    rw [collect, List.foldl_cons, hset]
    exact ih h

/-! ## Values -/

/-- What can be read where containers may be nested so deep. -/
inductive Legible : Nat → Json → Prop where
  | null (room : Nat) : Legible room .null
  | bool (room : Nat) (b : Bool) : Legible room (.bool b)
  | integer (room : Nat) {i : Int} : Number.InRange i → Legible room (.integer i)
  | float (room : Nat) {x : Binary64} : x.isFinite = true → Legible room (.float x)
  | string (room : Nat) (s : String) : Legible room (.string s)
  | array {room : Nat} {items : List Json} :
    (∀ v ∈ items, Legible room v) → Legible (room + 1) (.array items)
  | object {room : Nat} {members : Members} :
    Ascending members → (∀ m ∈ members, Legible room m.2) → Legible (room + 1) (.object members)

theorem Number.Fits.legible (h : Number.Fits value) (room : Nat) : Legible room value := by
  cases value with
  | integer i => exact .integer room h
  | float x => exact .float room h
  | null | bool | string | array | object => exact h.elim

theorem Legible.setMember (h : Legible room (.object members)) (key : String)
    (hvalue : Legible (room - 1) value) : Legible room (.object (setMember key value members)) := by
  cases h with
  | object hascending hmembers =>
    refine .object (hascending.setMember key value) fun m hm => ?_
    rcases mem_setMember hm with rfl | hm
    · exact hvalue
    · exact hmembers m hm

/-! ## What is read again -/

def numeralOf (w : List Char) : Numeral := (Number.ofWord? w).getD ⟨false, [], [], none⟩

theorem numeralOf_eq {w : List Char} {n : Numeral} (h : Number.Spells w n) : numeralOf w = n := by
  rw [numeralOf, Number.ofWord?_eq_some_iff.mpr h, Option.getD_some]

def rereadFloat (x : Binary64) : Binary64 :=
  match (numeralOf (floatChars x)).toJson? with
  | some (.float y) => y
  | _ => x

mutual

/-- The value that is read where a value was written. -/
def reread : Json → Json
  | .float x => .float (rereadFloat x)
  | .array items => .array (rereadItems items)
  | .object members => .object (rereadMembers members)
  | v => v

def rereadItems : List Json → List Json
  | [] => []
  | v :: rest => reread v :: rereadItems rest

def rereadMembers : Members → Members
  | [] => []
  | (k, v) :: rest => (k, reread v) :: rereadMembers rest

end

theorem rereadItems_eq (items : List Json) : rereadItems items = items.map reread := by
  induction items with
  | nil => rfl
  | cons v rest ih => rw [rereadItems, ih, List.map_cons]

theorem rereadMembers_eq (members : Members) :
    rereadMembers members = members.map fun m => (m.1, reread m.2) := by
  induction members with
  | nil => rfl
  | cons m rest ih => rw [rereadMembers, ih, List.map_cons]

theorem numeralOf_integer {i : Int} (h : Number.InRange i) :
    Number.Spells (integerChars i) (numeralOf (integerChars i)) ∧
      (numeralOf (integerChars i)).toJson? = some (.integer i) := by
  obtain ⟨n, hn, hi⟩ := Number.spells_integerChars h
  rw [numeralOf_eq hn]
  exact ⟨hn, hi⟩

theorem numeralOf_float {x : Binary64} (h : x.isFinite = true) :
    Number.Spells (floatChars x) (numeralOf (floatChars x)) ∧
      (numeralOf (floatChars x)).toJson? = some (.float (rereadFloat x)) := by
  obtain ⟨n, y, hn, hy⟩ := Number.spells_floatChars h
  rw [rereadFloat, numeralOf_eq hn, hy]
  exact ⟨hn, rfl⟩

theorem Legible.reread (h : Legible room value) : Legible room (reread value) := by
  induction h with
  | null room => exact .null room
  | bool room b => exact .bool room b
  | integer room hi => exact .integer room hi
  | float room hx => exact .float room (Number.toJson?_fits (numeralOf_float hx).2)
  | string room s => exact .string room s
  | array _ ih =>
    rw [Json.reread, rereadItems_eq]
    refine .array fun v hv => ?_
    obtain ⟨w, hw, rfl⟩ := List.mem_map.mp hv
    exact ih w hw
  | object hascending _ ih =>
    rw [Json.reread, rereadMembers_eq]
    refine .object (List.pairwise_map.mpr hascending) fun m hm => ?_
    obtain ⟨e, he, rfl⟩ := List.mem_map.mp hm
    exact ih e he

theorem member?_rereadMembers (key : String) (members : Members) :
    member? key (rereadMembers members) = (member? key members).map Json.reread := by
  induction members with
  | nil => rfl
  | cons m rest ih =>
    rw [rereadMembers, member?, member?, ih]
    split <;> rfl

end Rebuild.Json
