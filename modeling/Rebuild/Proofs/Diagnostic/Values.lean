import Rebuild.Diagnostic.CompileError
import Rebuild.Proofs.Json.Parsed
import Rebuild.Proofs.Json.Reading

/-!
# Errors in values

A compile error is read from a text or from a value that was read before. A
value keeps what was given to a key last and forgets the rest. So the two ways
come to the same for texts that have a value and repeat no key.
-/

set_option autoImplicit false

namespace Rebuild.Json

/-- In no object a key stands twice. -/
inductive Document.Distinct : Document → Prop where
  | null : Distinct .null
  | bool (b : Bool) : Distinct (.bool b)
  | number (n : Numeral) : Distinct (.number n)
  | text (units : List TextUnit) : Distinct (.text units)
  | array {items : List Document} : (∀ d ∈ items, Distinct d) → Distinct (.array items)
  | object {entries : Entries} : (entries.map fun m => TextUnit.string? m.1).Nodup →
    (∀ m ∈ entries, Distinct m.2) → Distinct (.object entries)

end Rebuild.Json

namespace Rebuild.CompileError

open Json

variable {α β : Type} {a : FieldReader α} {b : FieldReader β} {room : Nat} {d : Document} {v : Json}

/-! ## Readers side by side -/

/-- Two readers make the same of what they are given. -/
structure Agree (a : FieldReader α) (b : FieldReader β) (x : α) (y : β) : Prop where
  isNull : a.isNull x = b.isNull y
  category : a.category? x = b.category? y
  word : a.word? x = b.word? y
  string : a.string? x = b.string? y

theorem bind_agree {γ : Type} {f : α → Option γ} {g : β → Option γ}
    (hfg : ∀ {x y}, Agree a b x y → f x = g y) {o : Option α} {p : Option β}
    (h : Option.Rel (Agree a b) o p) : o.bind f = p.bind g := by
  cases h with
  | none => rfl
  | some h => exact hfg h

theorem optional_agree {γ : Type} {f : α → Option γ} {g : β → Option γ}
    (hfg : ∀ {x y}, Agree a b x y → f x = g y) {o : Option α} {p : Option β}
    (h : Option.Rel (Agree a b) o p) : optional a f o = optional b g p := by
  cases h with
  | none => rfl
  | some h => rw [optional, optional, h.isNull, hfg h]

theorem ofFields?_agree {category code message file line column : Option α}
    {category' code' message' file' line' column' : Option β}
    (hcategory : Option.Rel (Agree a b) category category')
    (hcode : Option.Rel (Agree a b) code code')
    (hmessage : Option.Rel (Agree a b) message message')
    (hfile : Option.Rel (Agree a b) file file') (hline : Option.Rel (Agree a b) line line')
    (hcolumn : Option.Rel (Agree a b) column column') :
    ofFields? a category code message file line column =
      ofFields? b category' code' message' file' line' column' := by
  rw [ofFields?, ofFields?, bind_agree Agree.category hcategory, bind_agree Agree.word hcode,
    bind_agree Agree.string hmessage, optional_agree Agree.string hfile,
    optional_agree Agree.word hline, optional_agree Agree.word hcolumn]

theorem ofMembers?_agree {ms : List (String × α)} {ns : List (String × β)}
    (h : ∀ key, Option.Rel (Agree a b) (member? key ms) (member? key ns)) :
    ofMembers? a ms = ofMembers? b ns :=
  ofFields?_agree (h _) (h _) (h _) (h _) (h _) (h _)

theorem ofItems?_agree {xs : List α} {ys : List β} (h : List.Forall₂ (Agree a b) xs ys) :
    ofItems? a xs = ofItems? b ys := by
  rw [ofItems?.eq_def]
  split
  · obtain - | ⟨h₁, - | ⟨h₂, - | ⟨h₃, - | ⟨h₄, - | ⟨h₅, - | ⟨h₆, ⟨⟩⟩⟩⟩⟩⟩⟩ := h
    exact ofFields?_agree (.some h₁) (.some h₂) (.some h₃) (.some h₄) (.some h₅) (.some h₆)
  · rename_i hother
    rw [ofItems?.eq_def]
    split
    · obtain - | ⟨-, - | ⟨-, - | ⟨-, - | ⟨-, - | ⟨-, - | ⟨-, ⟨⟩⟩⟩⟩⟩⟩⟩ := h
      exact absurd rfl (hother _ _ _ _ _ _)
    · rfl

/-! ## What is kept of members -/

theorem named?_eq_some_iff {entries : Document.Entries} {ms : List (String × Document)} :
    named? entries = some ms ↔
      entries.map (fun m => (TextUnit.string? m.1, m.2)) = ms.map fun m => (some m.1, m.2) := by
  induction entries generalizing ms with
  | nil => cases ms <;> simp [named?]
  | cons m rest ih =>
    rw [named?] at ih
    simp only [named?, List.mapM_cons, Option.pure_def, Option.bind_eq_bind,
      Option.bind_eq_some_iff, Option.map_eq_some_iff, Option.some.injEq, ih, List.map_cons]
    constructor
    · rintro ⟨_, ⟨name, hname, rfl⟩, ns, hns, rfl⟩
      rw [List.map_cons, hname, hns]
    · intro h
      cases ms with
      | nil => cases h
      | cons n ns =>
        obtain ⟨hhead, htail⟩ := List.cons.inj h
        obtain ⟨hname, hvalue⟩ := Prod.mk.inj hhead
        exact ⟨n, ⟨n.1, hname, by rw [hvalue]⟩, ns, htail, rfl⟩

theorem named?_keys {entries : Document.Entries} {ms : List (String × Document)}
    (h : named? entries = some ms) :
    (entries.map fun m => TextUnit.string? m.1) = (ms.map Prod.fst).map some := by
  have hkeys := congrArg (List.map Prod.fst) (named?_eq_some_iff.mp h)
  simpa only [List.map_map, Function.comp_def] using hkeys

theorem named?_values {entries : Document.Entries} {ms : List (String × Document)}
    (h : named? entries = some ms) : entries.map Prod.snd = ms.map Prod.snd := by
  have hvalues := congrArg (List.map Prod.snd) (named?_eq_some_iff.mp h)
  simpa only [List.map_map, Function.comp_def] using hvalues

theorem member?_of_not_mem {key : String} {ms : List (String × α)} (h : key ∉ ms.map Prod.fst) :
    member? key ms = none := by
  induction ms with
  | nil => rfl
  | cons m rest ih =>
    obtain ⟨hne, hrest⟩ := not_or.mp (mt List.mem_cons.mpr h)
    rw [member?, if_neg (Ne.symm hne), ih hrest]

/-- What is given to a key stands there as a value, and the others have what they had before. -/
def Kept (room : Nat) (ms : List (String × Document)) (before members : Members) : Prop :=
  ∀ key, (key ∉ ms.map Prod.fst ∧ member? key members = member? key before) ∨
    ∃ d v, member? key ms = some d ∧ member? key members = some v ∧ d.toJson? room = some v

theorem kept_cons {key : String} {ms : List (String × Document)} {before members : Members}
    (hkey : key ∉ ms.map Prod.fst) (hv : d.toJson? room = some v)
    (h : Kept room ms (setMember key v before) members) :
    Kept room ((key, d) :: ms) before members := by
  intro name
  rw [member?]
  split
  · rename_i hname
    subst hname
    rcases h key with ⟨-, hmember⟩ | ⟨_, _, hgiven, -⟩
    · exact Or.inr ⟨d, v, rfl, hmember.trans (member?_setMember ..), hv⟩
    · rw [member?_of_not_mem hkey] at hgiven
      cases hgiven
  · rename_i hname
    rcases h name with ⟨hnone, hmember⟩ | hgiven
    · have hnew : name ∉ key :: ms.map Prod.fst :=
        mt List.mem_cons.mp (not_or.mpr ⟨Ne.symm hname, hnone⟩)
      exact Or.inl ⟨hnew, hmember.trans (member?_setMember_of_ne (Ne.symm hname) _ _)⟩
    · exact Or.inr hgiven

theorem exists_kept {entries : Document.Entries} {before members : Members}
    (hkeys : (entries.map fun m => TextUnit.string? m.1).Nodup)
    (h : Document.entriesToJson? room before entries = some members) :
    ∃ ms, named? entries = some ms ∧ Kept room ms before members := by
  induction entries generalizing before with
  | nil =>
    cases h
    exact ⟨[], rfl, fun _ => Or.inl ⟨List.not_mem_nil, rfl⟩⟩
  | cons m rest ih =>
    obtain ⟨key, hkey, h⟩ := Option.bind_eq_some_iff.mp h
    obtain ⟨v, hv, h⟩ := Option.bind_eq_some_iff.mp h
    rw [List.map_cons, hkey, List.nodup_cons] at hkeys
    obtain ⟨hnew, hkeys⟩ := hkeys
    obtain ⟨ms, hnamed, hkept⟩ := ih hkeys h
    refine ⟨(key, m.2) :: ms, named?_eq_some_iff.mpr ?_, kept_cons ?_ hv hkept⟩
    · rw [List.map_cons, List.map_cons, hkey, named?_eq_some_iff.mp hnamed]
    · rw [named?_keys hnamed] at hnew
      exact fun hmem => hnew (List.mem_map_of_mem hmem)

/-! ## Fields -/

theorem isNull_value (h : d.toJson? room = some v) : documentReader.isNull d = isNull v := by
  cases d with
  | null | bool =>
    cases h
    rfl
  | number n =>
    obtain ⟨i, rfl⟩ | ⟨x, rfl⟩ := Number.integer_or_float h <;> rfl
  | text units =>
    obtain ⟨s, -, rfl⟩ := Option.map_eq_some_iff.mp h
    rfl
  | array items =>
    obtain ⟨_, vs, -, -, rfl⟩ := Document.exists_items h
    rfl
  | object entries =>
    obtain ⟨_, members, -, -, rfl⟩ := Document.exists_members h
    rfl

theorem category_entry (units : List TextUnit) (d : Document) :
    Category.ofDocument? (.object [(units, d)]) =
      if documentReader.isNull d then (TextUnit.string? units).bind Category.ofText? else none := by
  cases d <;> rfl

theorem category_member (key : String) (v : Json) :
    Category.ofJson? (.object [(key, v)]) =
      if isNull v then Category.ofText? key else none := by
  cases v <;> rfl

theorem category_many {members : Members} {key other : String} (hne : key ≠ other)
    (hkey : (member? key members).isSome = true) (hother : (member? other members).isSome = true) :
    Category.ofJson? (.object members) = none := by
  have hname {name key : String} (h : (member? key [(name, Json.null)]).isSome = true) :
      name = key := by
    rw [member?] at h
    split at h
    · assumption
    · cases h
  rw [Category.ofJson?.eq_def]
  split
  · rename_i hstring
    cases hstring
  · rename_i hsingle
    cases hsingle
    exact absurd ((hname hkey).symm.trans (hname hother)) hne
  · rfl

theorem Kept.isSome {ms : List (String × Document)} {before members : Members}
    (h : Kept room ms before members) {key : String} (hkey : key ∈ ms.map Prod.fst) :
    (member? key members).isSome = true := by
  rcases h key with ⟨hnone, -⟩ | ⟨_, v, -, hv, -⟩
  · exact absurd hkey hnone
  · rw [hv, Option.isSome_some]

theorem category_object {entries : Document.Entries} {members : Members}
    (hkeys : (entries.map fun m => TextUnit.string? m.1).Nodup)
    (h : Document.entriesToJson? room [] entries = some members) :
    Category.ofDocument? (.object entries) = Category.ofJson? (.object members) := by
  rcases entries with - | ⟨⟨units, d⟩, - | ⟨⟨more, e⟩, rest⟩⟩
  · cases h
    rfl
  · obtain ⟨key, hkey, h⟩ := Option.bind_eq_some_iff.mp h
    obtain ⟨v, hv, h⟩ := Option.bind_eq_some_iff.mp h
    cases h
    rw [category_entry, hkey, Option.bind_some, setMember, category_member, isNull_value hv]
  · obtain ⟨ms, hnamed, hkept⟩ := exists_kept hkeys h
    rw [named?_keys hnamed] at hkeys
    rcases ms with - | ⟨m, - | ⟨n, ms⟩⟩
    · cases named?_values hnamed
    · cases (List.cons.inj (named?_values hnamed)).2
    · have hne : m.1 ≠ n.1 := fun heq =>
        (List.nodup_cons.mp hkeys).1 (heq ▸ List.mem_cons_self ..)
      have hnone : Category.ofDocument? (.object ((units, d) :: (more, e) :: rest)) = none := by
        cases d <;> rfl
      rw [hnone, category_many hne (hkept.isSome (List.mem_cons_self ..))
        (hkept.isSome (List.mem_cons_of_mem _ (List.mem_cons_self ..)))]

theorem agree_value (hd : d.Distinct) (h : d.toJson? room = some v) :
    Agree documentReader valueReader d v := by
  cases d with
  | null | bool =>
    cases h
    exact ⟨rfl, rfl, rfl, rfl⟩
  | number n =>
    have hword : documentReader.word? (.number n) = word? v := congrArg (Option.bind · word?) h
    obtain ⟨i, rfl⟩ | ⟨x, rfl⟩ := Number.integer_or_float h <;> exact ⟨rfl, rfl, hword, rfl⟩
  | text units =>
    obtain ⟨s, hs, rfl⟩ := Option.map_eq_some_iff.mp h
    exact ⟨rfl, congrArg (Option.bind · Category.ofText?) hs, rfl, hs⟩
  | array items =>
    obtain ⟨_, vs, -, -, rfl⟩ := Document.exists_items h
    exact ⟨rfl, rfl, rfl, rfl⟩
  | object entries =>
    obtain ⟨_, members, -, hmembers, rfl⟩ := Document.exists_members h
    cases hd with
    | object hkeys => exact ⟨rfl, category_object hkeys hmembers, rfl, rfl⟩

/-! ## Errors -/

theorem agree_items {items : List Document} (hd : ∀ d ∈ items, d.Distinct) {vs : List Json}
    (h : Document.itemsToJson? room items = some vs) :
    List.Forall₂ (Agree documentReader valueReader) items vs := by
  induction items generalizing vs with
  | nil =>
    cases h
    exact .nil
  | cons d rest ih =>
    obtain ⟨v, hv, h⟩ := Option.bind_eq_some_iff.mp h
    obtain ⟨ws, hws, h⟩ := Option.bind_eq_some_iff.mp h
    cases h
    exact .cons (agree_value (hd d (List.mem_cons_self ..)) hv)
      (ih (fun e he => hd e (List.mem_cons_of_mem _ he)) hws)

theorem mem_of_member? {key : String} {ms : List (String × α)} {x : α}
    (h : member? key ms = some x) : x ∈ ms.map Prod.snd := by
  induction ms with
  | nil => cases h
  | cons m rest ih =>
    rw [member?] at h
    split at h
    · cases h
      exact List.mem_cons_self ..
    · exact List.mem_cons_of_mem _ (ih h)

theorem agree_members {ms : List (String × Document)} {members : Members}
    (hd : ∀ m ∈ ms, m.2.Distinct) (h : Kept room ms [] members) (key : String) :
    Option.Rel (Agree documentReader valueReader) (member? key ms) (member? key members) := by
  rcases h key with ⟨hkey, hnone⟩ | ⟨d, v, hgiven, hkept, hv⟩
  · rw [member?_of_not_mem hkey, hnone]
    exact .none
  · rw [hgiven, hkept]
    obtain ⟨m, hm, rfl⟩ := List.mem_map.mp (mem_of_member? hgiven)
    exact .some (agree_value (hd m hm) hv)

theorem isUnambiguous_of_nodup {ms : List (String × α)} (h : ((ms.map Prod.fst).map some).Nodup) :
    isUnambiguous ms = true := by
  have hnodup : (ms.map Prod.fst).Nodup :=
    (List.pairwise_map.mp h).imp fun hne heq => hne (congrArg some heq)
  exact List.all_eq_true.mpr fun name _ => decide_eq_true (List.nodup_iff_count.mp hnodup name)

theorem distinct_named {entries : Document.Entries} {ms : List (String × Document)}
    (hnamed : named? entries = some ms) (h : ∀ m ∈ entries, m.2.Distinct) :
    ∀ m ∈ ms, m.2.Distinct := by
  intro m hm
  have hvalue : m.2 ∈ ms.map Prod.snd := List.mem_map_of_mem hm
  rw [← named?_values hnamed] at hvalue
  obtain ⟨e, he, heq⟩ := List.mem_map.mp hvalue
  exact heq ▸ h e he

theorem ofDocument?_value (hd : d.Distinct) (h : d.toJson? room = some v) :
    ofDocument? d = ofJson? v := by
  cases hd with
  | null | bool =>
    cases h
    rfl
  | number n =>
    obtain ⟨i, rfl⟩ | ⟨x, rfl⟩ := Number.integer_or_float h <;> rfl
  | text units =>
    obtain ⟨s, -, rfl⟩ := Option.map_eq_some_iff.mp h
    rfl
  | array hitems =>
    obtain ⟨_, vs, -, hvs, rfl⟩ := Document.exists_items h
    exact ofItems?_agree (agree_items hitems hvs)
  | object hkeys hentries =>
    obtain ⟨_, members, -, hmembers, rfl⟩ := Document.exists_members h
    obtain ⟨ms, hnamed, hkept⟩ := exists_kept hkeys hmembers
    rw [named?_keys hnamed] at hkeys
    simp only [ofDocument?, hnamed, Option.bind_eq_bind, Option.bind_some,
      if_pos (isUnambiguous_of_nodup hkeys)]
    exact ofMembers?_agree (agree_members (distinct_named hnamed hentries) hkept)

/-- A text that repeats no key is read as its value is, if it has one. -/
theorem parse?_value {s : String} (h : Json.parse? s = some v)
    (hkeys : ∀ d : Document, d.SpelledBy s.toList → d.Distinct) : parse? s = ofJson? v := by
  obtain ⟨d, hd, hv⟩ := Option.bind_eq_some_iff.mp h
  rw [parse?, hd, Option.bind_some]
  exact ofDocument?_value (hkeys d (Document.parse?_eq_some_iff.mp hd)) hv

end Rebuild.CompileError
