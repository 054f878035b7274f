import Rebuild.Proofs.Json.Tokens

/-!
# Reading a document

The reader comes from the tokens of a document to the document. What it has
taken is the beginning of these tokens at each step, so it comes to a document
from no other tokens. A text is read as the document that it spells.
-/

set_option autoImplicit false

namespace Rebuild.Json

namespace Reader

open Document

variable {r next : Reader} {stack : List Frame} {d : Document} {t : Token} {ts : List Token}

def run (r : Reader) (ts : List Token) : Option Reader := ts.foldlM step r

theorem run_cons (r : Reader) (t : Token) (ts : List Token) :
    r.run (t :: ts) = (r.step t).bind fun next => next.run ts := rfl

theorem run_append (r : Reader) (a b : List Token) :
    r.run (a ++ b) = (r.run a).bind fun next => next.run b := List.foldlM_append

/-! ## From a document to its tokens and back -/

def Takes (d : Document) : Prop :=
  ∀ stack, run (.value stack) (tokens d) = some (.done d stack)

theorem run_firstItem (stack : List Frame) (d : Document) (ts : List Token) :
    run (.firstItem stack) (tokens d ++ ts) = run (.value (.array [] :: stack)) (tokens d ++ ts) := by
  cases d <;> rfl

theorem run_items {rest : List Document} (backward : List Document)
    (h : ∀ u ∈ d :: rest, Takes u) :
    run (.value (.array backward :: stack)) (itemsTokens (d :: rest) ++ [.closeArray]) =
      some (.done (.array (backward.reverse ++ d :: rest)) stack) := by
  induction rest generalizing d backward with
  | nil =>
    rw [itemsTokens, run_append, h d (List.mem_cons_self ..), Option.bind_some]
    simp [run, step, afterValue]
  | cons e rest ih =>
    have hcomma (ts : List Token) : run (.done d (.array backward :: stack)) (.comma :: ts) =
        run (.value (.array (d :: backward) :: stack)) ts := rfl
    rw [itemsTokens, List.append_assoc, run_append, h d (List.mem_cons_self ..), Option.bind_some,
      List.cons_append, hcomma, ih (d :: backward) fun u hu => h u (List.mem_cons_of_mem _ hu)]
    simp

theorem run_entry {key : List TextUnit} {backward : Entries}
    (hr : r.step (.text key) = some (.colon backward key stack)) (hd : Takes d)
    (ts : List Token) :
    r.run (.text key :: .colon :: tokens d ++ ts) =
      run (.done d (.object backward key :: stack)) ts := by
  have hcolon : step (.colon backward key stack) .colon =
      some (.value (.object backward key :: stack)) := rfl
  rw [List.cons_append, List.cons_append, run_cons, hr, Option.bind_some, run_cons, hcolon,
    Option.bind_some, run_append, hd, Option.bind_some]

theorem run_entries {m : List TextUnit × Document} {rest : Entries} (backward : Entries)
    (hr : r.step (.text m.1) = some (.colon backward m.1 stack))
    (h : ∀ e ∈ m :: rest, Takes e.2) :
    r.run (entriesTokens (m :: rest) ++ [.closeObject]) =
      some (.done (.object (backward.reverse ++ m :: rest)) stack) := by
  induction rest generalizing r m backward with
  | nil =>
    have hclose : run (.done m.2 (.object backward m.1 :: stack)) [.closeObject] =
        some (.done (.object (m :: backward).reverse) stack) := rfl
    rw [entriesTokens, run_entry hr (h m (List.mem_cons_self ..)), hclose, List.reverse_cons]
  | cons e rest ih =>
    have hcomma (ts : List Token) : run (.done m.2 (.object backward m.1 :: stack)) (.comma :: ts) =
        run (.nextKey (m :: backward) stack) ts := rfl
    rw [entriesTokens, List.append_assoc, run_entry hr (h m (List.mem_cons_self ..)),
      List.cons_append, hcomma,
      ih (m :: backward) rfl fun u hu => h u (List.mem_cons_of_mem _ hu)]
    simp

theorem takes (d : Document) : Takes d := by
  induction d using Document.induct with
  | null | bool | number | text => exact fun _ => rfl
  | array items ih =>
    intro stack
    have hopen (ts : List Token) : run (.value stack) (.openArray :: ts) =
        run (.firstItem stack) ts := rfl
    rw [tokens, List.cons_append, hopen]
    cases items with
    | nil => rfl
    | cons d rest =>
      have hfirst : run (.firstItem stack) (itemsTokens (d :: rest) ++ [.closeArray]) =
          run (.value (.array [] :: stack)) (itemsTokens (d :: rest) ++ [.closeArray]) := by
        cases rest with
        | nil => exact run_firstItem stack d _
        | cons e rest =>
          rw [itemsTokens, List.append_assoc]
          exact run_firstItem stack d _
      rw [hfirst, run_items [] ih]
      rfl
  | object entries ih =>
    intro stack
    have hopen (ts : List Token) : run (.value stack) (.openObject :: ts) =
        run (.firstKey stack) ts := rfl
    rw [tokens, List.cons_append, hopen]
    cases entries with
    | nil => rfl
    | cons m rest => exact run_entries [] rfl ih

/-! ## What has been taken -/

def itemsBefore (items : List Document) : List Token := items.flatMap fun d => tokens d ++ [.comma]

def entriesBefore (entries : Entries) : List Token :=
  entries.flatMap fun m => .text m.1 :: .colon :: tokens m.2 ++ [.comma]

theorem itemsBefore_append (items : List Document) (d : Document) :
    itemsBefore items ++ tokens d = itemsTokens (items ++ [d]) := by
  induction items with
  | nil => simp [itemsBefore, itemsTokens]
  | cons e items ih =>
    rw [itemsBefore, List.flatMap_cons, ← itemsBefore, List.append_assoc, ih]
    cases items <;> simp [itemsTokens]

theorem entriesBefore_append (entries : Entries) (m : List TextUnit × Document) :
    entriesBefore entries ++ .text m.1 :: .colon :: tokens m.2 = entriesTokens (entries ++ [m]) := by
  induction entries with
  | nil => simp [entriesBefore, entriesTokens]
  | cons e entries ih =>
    rw [entriesBefore, List.flatMap_cons, ← entriesBefore, List.append_assoc, ih]
    cases entries <;> simp [entriesTokens]

def takenBy : List Frame → List Token
  | [] => []
  | .array backward :: stack => takenBy stack ++ .openArray :: itemsBefore backward.reverse
  | .object backward key :: stack =>
    takenBy stack ++ .openObject :: entriesBefore backward.reverse ++ [.text key, .colon]

/-- The tokens that led to a state of the reader. -/
def taken : Reader → List Token
  | .value stack => takenBy stack
  | .firstItem stack => takenBy stack ++ [.openArray]
  | .firstKey stack => takenBy stack ++ [.openObject]
  | .nextKey backward stack => takenBy stack ++ .openObject :: entriesBefore backward.reverse
  | .colon backward key stack =>
    takenBy stack ++ .openObject :: entriesBefore backward.reverse ++ [.text key]
  | .done d stack => takenBy stack ++ tokens d

theorem startValue_taken (h : startValue stack t = some next) :
    next.taken = takenBy stack ++ [t] := by
  cases t <;> cases h <;> rfl

theorem afterValue_taken (h : afterValue d stack t = some next) :
    next.taken = takenBy stack ++ tokens d ++ [t] := by
  rw [afterValue.eq_def] at h
  split at h
  · cases h
    simp [taken, takenBy, itemsBefore]
  · cases h
    simp [taken, takenBy, tokens, ← itemsBefore_append]
  · cases h
    simp [taken, takenBy, entriesBefore]
  · cases h
    simp [taken, takenBy, tokens, ← entriesBefore_append]
  · cases h

theorem step_taken (h : r.step t = some next) : next.taken = r.taken ++ [t] := by
  rw [step.eq_def] at h
  split at h
  · exact startValue_taken h
  · cases h
    simp [taken, tokens, itemsTokens]
  · rw [startValue_taken h]
    simp [taken, takenBy, itemsBefore]
  · cases h
    simp [taken, tokens, entriesTokens]
  · cases h
    simp [taken, entriesBefore]
  · cases h
  · cases h
    simp [taken]
  · cases h
  · cases h
    simp [taken, takenBy]
  · cases h
  · exact afterValue_taken h

theorem run_taken (h : r.run ts = some next) : next.taken = r.taken ++ ts := by
  induction ts generalizing r with
  | nil =>
    cases h
    exact (List.append_nil _).symm
  | cons t ts ih =>
    obtain ⟨middle, hstep, hrest⟩ := Option.bind_eq_some_iff.mp h
    rw [ih hrest, step_taken hstep, List.append_assoc, List.singleton_append]

end Reader

namespace Document

/-- The tokens of a document are put together to it, and no other tokens are. -/
theorem ofTokens?_eq_some_iff {ts : List Token} {d : Document} :
    ofTokens? ts = some d ↔ ts = d.tokens := by
  constructor
  · intro h
    obtain ⟨r, hr, hfinish⟩ := Option.bind_eq_some_iff.mp h
    rw [Reader.finish?.eq_def] at hfinish
    split at hfinish
    · cases hfinish
      exact (Reader.run_taken hr).symm
    · cases hfinish
  · rintro rfl
    have htakes := Reader.takes d []
    rw [Reader.run] at htakes
    rw [ofTokens?, htakes]
    rfl

theorem ofChars?_eq_some_iff {cs : List Char} {d : Document} :
    ofChars? cs = some d ↔ d.SpelledBy cs := by
  simp only [ofChars?, Option.bind_eq_some_iff, tokens?_eq_some_iff, ofTokens?_eq_some_iff,
    exists_eq_right, SpelledBy]

/-- A text is read by the grammar: as the document that it spells, or not at all. -/
theorem parse?_eq_some_iff {s : String} {d : Document} :
    parse? s = some d ↔ d.SpelledBy s.toList := ofChars?_eq_some_iff

end Document

end Rebuild.Json
