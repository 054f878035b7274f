import Rebuild.Proofs.Cache.Difference
import Rebuild.Proofs.Cache.Reuse

/-!
# What a generation has changed

The changes between two generations are read off the hashes of the records.
What is parsed and what is taken over is decided admission by admission. In a
generation that gives each file one text both say the same of every file,
unless two texts of one file have the same hash.
-/

set_option autoImplicit false

namespace Rebuild

variable {σ τ H : Type}

namespace FileCache

theorem getElem?_hashes (g : Generation H) (path : CanonicalPath) :
    (hashes g)[path]? = g[path]?.map FileRecord.hash := by
  rw [hashes, Std.TreeMap.getElem?_map]

end FileCache

def taggedPaths (reuse : Reuse) (answers : List (Option (Admission H))) : List CanonicalPath :=
  answers.filterMap fun answer =>
    answer.bind fun a => if a.reuse = reuse then some a.observed.path else none

def admittedPaths (answers : List (Option (Admission H))) : List CanonicalPath :=
  answers.filterMap fun answer => answer.map fun a => a.observed.path

theorem taggedPaths_append (reuse : Reuse) (answers : List (Option (Admission H)))
    (a : Admission H) :
    taggedPaths reuse (answers ++ [some a]) =
      taggedPaths reuse answers ++ if a.reuse = reuse then [a.observed.path] else [] := by
  rw [taggedPaths, List.filterMap_append, ← taggedPaths]
  by_cases h : a.reuse = reuse <;> simp [h]

theorem taggedPaths_append_none (reuse : Reuse) (answers : List (Option (Admission H))) :
    taggedPaths reuse (answers ++ [none]) = taggedPaths reuse answers := by
  simp [taggedPaths]

theorem admittedPaths_append (answers : List (Option (Admission H))) (a : Admission H) :
    admittedPaths (answers ++ [some a]) = admittedPaths answers ++ [a.observed.path] := by
  simp [admittedPaths]

/-- No file is admitted with two texts. -/
def Steady (past : List CacheEvent) : Prop :=
  ∀ path a b isRoot isRoot', CacheEvent.admitted path a isRoot ∈ past →
    CacheEvent.admitted path b isRoot' ∈ past → a = b

def CacheEvent.agrees : CacheEvent → CacheEvent → Bool
  | .admitted p a _, .admitted q b _ => p != q || a == b
  | _, _ => true

theorem steady_iff (past : List CacheEvent) :
    Steady past ↔ ∀ e ∈ past, ∀ f ∈ past, e.agrees f := by
  constructor
  · rintro h (⟨p, a, isRoot⟩ | ⟨p⟩ | _) he (⟨q, b, isRoot'⟩ | ⟨q⟩ | _) hf <;> try rfl
    by_cases hpq : p = q
    · subst q
      simp [CacheEvent.agrees, h p a b isRoot isRoot' he hf]
    · simp [CacheEvent.agrees, hpq]
  · intro h p a b isRoot isRoot' ha hb
    simpa [CacheEvent.agrees] using h _ ha _ hb

instance (past : List CacheEvent) : Decidable (Steady past) :=
  decidable_of_iff _ (steady_iff past).symm

namespace FileCache

def textIn (g : Generation H) (path : CanonicalPath) : Option String :=
  g[path]?.map FileRecord.contents

/-- What an admission is tagged with that is the first one of its path, if `g` is the generation
before. -/
def sourceIn (g : Generation H) (path : CanonicalPath) (contents : String) : Reuse :=
  if textIn g path = some contents then .previous else .fresh

theorem sourceIn_cases (g : Generation H) (path : CanonicalPath) (contents : String) :
    sourceIn g path contents = .fresh ∨ sourceIn g path contents = .previous := by
  rw [sourceIn]
  split
  · exact Or.inr rfl
  · exact Or.inl rfl

/-- How the answers given since the latest reset stand to the records they have left, if `g` is
the generation before. A file was parsed or taken over once, when it came first. -/
structure Settled (g : Generation H) (d : FileCache H) (past : List CacheEvent)
    (answers : List (Option (Admission H))) : Prop where
  previous : d.previous = g
  hashed : d.Each fun _ r => r.hash = .ofText r.contents
  origin : ∀ path contents, textIn d.current path = some contents →
    ∃ isRoot, CacheEvent.admitted path contents isRoot ∈ past
  admitted : ∀ path, path ∈ admittedPaths answers ↔ path ∈ d.current
  once : ∀ reuse, reuse ≠ .current → (taggedPaths reuse answers).Nodup
  tagged : ∀ reuse, reuse ≠ .current → ∀ path, path ∈ taggedPaths reuse answers ↔
    ∃ contents, textIn d.current path = some contents ∧ sourceIn g path contents = reuse

theorem textIn_insert (g : Generation H) (p q : CanonicalPath) (r : FileRecord H) :
    textIn (g.insert p r) q = if p = q then some r.contents else textIn g q := by
  rw [textIn, generation_insert]
  split <;> rfl

theorem settled_reset {c : FileCache H} (h : c.Each fun _ r => r.hash = .ofText r.contents) :
    Settled c.current c.reset [] [] where
  previous := rfl
  hashed := each_reset h
  origin path contents ht := by simp [reset, textIn] at ht
  admitted path := by simp [admittedPaths, reset]
  once reuse _ := List.nodup_nil
  tagged reuse _ path := by simp [taggedPaths, reset, textIn]

namespace Settled

variable {g : Generation H} {d next : FileCache H} {past : List CacheEvent}
  {answers : List (Option (Admission H))} {a : Admission H} {path : CanonicalPath}
  {contents : String}

theorem again (h : Settled g d past answers) (hcur : textIn d.current path = some contents)
    (htag : a.reuse = .current)
    (htext : ∀ q, textIn next.current q = if path = q then some contents else textIn d.current q)
    {reuse : Reuse} (hreuse : reuse ≠ .current) :
    (taggedPaths reuse (answers ++ [some a])).Nodup ∧
      ∀ q, q ∈ taggedPaths reuse (answers ++ [some a]) ↔
        ∃ t, textIn next.current q = some t ∧ sourceIn g q t = reuse := by
  have hsame : taggedPaths reuse (answers ++ [some a]) = taggedPaths reuse answers := by
    rw [taggedPaths_append, htag, if_neg hreuse.symm, List.append_nil]
  have hkept (q : CanonicalPath) : textIn next.current q = textIn d.current q := by
    rw [htext]
    split
    · rename_i hq
      rw [← hq, hcur]
    · rfl
  rw [hsame]
  refine ⟨h.once reuse hreuse, fun q => ?_⟩
  rw [hkept]
  exact h.tagged reuse hreuse q

theorem first (h : Settled g d past answers) (hcur : textIn d.current path = none)
    (hpath : a.observed.path = path) (htag : a.reuse = sourceIn g path contents)
    (htext : ∀ q, textIn next.current q = if path = q then some contents else textIn d.current q)
    {reuse : Reuse} (hreuse : reuse ≠ .current) :
    (taggedPaths reuse (answers ++ [some a])).Nodup ∧
      ∀ q, q ∈ taggedPaths reuse (answers ++ [some a]) ↔
        ∃ t, textIn next.current q = some t ∧ sourceIn g q t = reuse := by
  have hfresh : path ∉ taggedPaths reuse answers := by
    rw [h.tagged reuse hreuse, hcur]
    rintro ⟨t, ht, -⟩
    cases ht
  have hmore : taggedPaths reuse (answers ++ [some a]) =
      taggedPaths reuse answers ++ if sourceIn g path contents = reuse then [path] else [] := by
    rw [taggedPaths_append, htag, hpath]
  rw [hmore]
  constructor
  · split
    · exact List.nodup_append.mpr ⟨h.once reuse hreuse, by simp,
        fun q hq p hp heq => hfresh (List.mem_singleton.mp hp ▸ heq ▸ hq)⟩
    · rw [List.append_nil]
      exact h.once reuse hreuse
  · intro q
    rw [List.mem_append, h.tagged reuse hreuse, htext]
    by_cases hq : path = q
    · subst q
      rw [hcur, if_pos rfl]
      split <;> simp_all
    · rw [if_neg hq]
      split <;> simp [Ne.symm hq]

theorem accept (h : Settled g d past answers) (path : CanonicalPath) (contents : String)
    (isRoot : Option Bool) (parse : Parser σ H) (s : σ)
    (hsteady : ∀ t isRoot', CacheEvent.admitted path t isRoot' ∈ past → t = contents) :
    Settled g (d.accept path contents isRoot parse s).1.2
      (.admitted path contents isRoot :: past)
      (answers ++ [some (d.accept path contents isRoot parse s).1.1]) := by
  have hpath : (d.accept path contents isRoot parse s).1.1.observed.path = path := by
    rw [accept_observed]
  have htext (q : CanonicalPath) : textIn (d.accept path contents isRoot parse s).1.2.current q =
      if path = q then some contents else textIn d.current q := by
    rw [accept_current, textIn_insert]
    rfl
  have htag : (d.accept path contents isRoot parse s).1.1.reuse =
      if textIn d.current path = some contents then .current else sourceIn g path contents := by
    rw [accept_reuse, recorded?_reuse d path contents h.hashed, h.previous, sourceIn, textIn, textIn]
    split
    · rfl
    · split <;> rfl
  have htold (reuse : Reuse) (hreuse : reuse ≠ .current) :
      (taggedPaths reuse (answers ++ [some (d.accept path contents isRoot parse s).1.1])).Nodup ∧
        ∀ q, q ∈ taggedPaths reuse
            (answers ++ [some (d.accept path contents isRoot parse s).1.1]) ↔
          ∃ t, textIn (d.accept path contents isRoot parse s).1.2.current q = some t ∧
            sourceIn g q t = reuse := by
    cases hcur : textIn d.current path with
    | none =>
      rw [hcur, if_neg (by simp)] at htag
      exact h.first hcur hpath htag htext hreuse
    | some t =>
      obtain ⟨isRoot', hmem⟩ := h.origin path t hcur
      rw [hsteady t isRoot' hmem] at hcur
      rw [if_pos hcur] at htag
      exact h.again hcur htag htext hreuse
  refine ⟨?_, ?_, ?_, ?_, fun reuse hreuse => (htold reuse hreuse).1,
    fun reuse hreuse => (htold reuse hreuse).2⟩
  · exact (d.accept_previous path contents isRoot parse s).trans h.previous
  · exact each_accept h.hashed rfl
  · intro q t ht
    rw [htext] at ht
    split at ht
    · rename_i hq
      cases ht
      subst q
      exact ⟨isRoot, List.mem_cons_self ..⟩
    · obtain ⟨isRoot', hmem⟩ := h.origin q t ht
      exact ⟨isRoot', List.mem_cons_of_mem _ hmem⟩
  · intro q
    rw [admittedPaths_append, List.mem_append, h.admitted, hpath, List.mem_singleton,
      accept_current, Std.TreeMap.mem_insert, Std.LawfulEqCmp.compare_eq_iff_eq, eq_comm, or_comm]

theorem mem_current (h : Settled g d past answers) (path : CanonicalPath) :
    path ∈ d.current ↔
      path ∈ taggedPaths .fresh answers ∨ path ∈ taggedPaths .previous answers := by
  rw [h.tagged _ (by decide), h.tagged _ (by decide), Std.TreeMap.mem_iff_isSome_getElem?]
  cases hcur : d.current[path]? with
  | none => simp [textIn, hcur]
  | some r =>
    simp only [textIn, hcur, Option.map_some, Option.some.injEq, exists_eq_left']
    exact iff_of_true rfl (sourceIn_cases g path r.contents)

theorem missed (h : Settled g d past answers) (path : CanonicalPath) :
    Settled g { d with stats := d.stats.countMiss } (.missed path :: past)
      (answers ++ [none]) where
  previous := h.previous
  hashed := h.hashed
  origin q t ht := by
    obtain ⟨isRoot, hmem⟩ := h.origin q t ht
    exact ⟨isRoot, List.mem_cons_of_mem _ hmem⟩
  admitted q := by
    rw [admittedPaths, List.filterMap_append, ← admittedPaths]
    simpa using h.admitted q
  once reuse hreuse := by
    rw [taggedPaths_append_none]
    exact h.once reuse hreuse
  tagged reuse hreuse q := by
    rw [taggedPaths_append_none]
    exact h.tagged reuse hreuse q

theorem handle (h : Settled g d past answers) (s : σ) (request : CacheRequest σ H)
    (hreset : request.event d.currentDir ≠ .reset)
    (hsteady : Steady (request.event d.currentDir :: past)) :
    Settled g (d.handle s request).1.2 (request.event d.currentDir :: past)
      (answers ++ [(d.handle s request).1.1]) := by
  rcases d.handle_cases s request with ⟨path, contents, isRoot, parse, he, hr⟩ | ⟨path, he, hr⟩ |
    ⟨he, -⟩
  · rw [he] at hsteady
    rw [he, hr]
    exact h.accept path contents isRoot parse s fun t isRoot' hmem =>
      hsteady path t contents isRoot' isRoot (List.mem_cons_of_mem _ hmem) (List.mem_cons_self ..)
  · rw [he, hr]
    exact h.missed path
  · exact absurd he hreset

end Settled

theorem settled_advance {c : FileCache H} (h : c.Each fun _ r => r.hash = .ofText r.contents)
    (s : σ) (requests : List (CacheRequest σ H))
    (hreset : .reset ∉ history c.currentDir requests)
    (hsteady : Steady (history c.currentDir requests)) :
    Settled c.current (c.reset.advance s requests).1 (history c.currentDir requests)
      (c.reset.answers s requests) := by
  induction requests using List.reverseRecOn with
  | nil => exact settled_reset h
  | append_singleton requests request ih =>
    rw [history_append] at hreset hsteady ⊢
    obtain ⟨hlast, hbefore⟩ := not_or.mp (mt List.mem_cons.mpr hreset)
    have hstart := ih hbefore fun path a b f f' ha hb =>
      hsteady path a b f f' (List.mem_cons_of_mem _ ha) (List.mem_cons_of_mem _ hb)
    have hdir : (c.reset.advance s requests).1.currentDir = c.currentDir :=
      c.reset.advance_currentDir s requests
    have hnext := hstart.handle (c.reset.advance s requests).2 request
    rw [hdir] at hnext
    rw [advance_append, answers_append]
    exact hnext (Ne.symm hlast) hsteady

theorem calls_names (c : FileCache H) (s : σ) (requests : List (CacheRequest σ H)) :
    (c.calls s requests).map ParseCall.name =
      (taggedPaths .fresh (c.answers s requests)).map (·.relativeTo c.currentDir) := by
  induction requests using List.reverseRecOn with
  | nil => rfl
  | append_singleton requests request ih =>
    rw [calls_append, answers_append, List.map_append, ih, advance_currentDir]
    have hstep := (c.advance s requests).1.handle_cases (c.advance s requests).2 request
    rw [advance_currentDir] at hstep
    rw [answers, answers]
    rcases hstep with ⟨path, contents, isRoot, parse, he, hr⟩ | ⟨path, he, hr⟩ | ⟨he, hr⟩
    · rw [he, hr, taggedPaths_append, accept_observed, List.map_append, CacheEvent.calls]
      split <;> rfl
    · rw [he, hr, taggedPaths_append_none]
      simp [CacheEvent.calls]
    · rw [he, hr, taggedPaths_append_none]
      simp [CacheEvent.calls]

theorem mem_added (c : FileCache H) (path : CanonicalPath) :
    path ∈ c.changes.added ↔ ∃ r, c.current[path]? = some r ∧ c.previous[path]? = none := by
  rw [changes, ChangeSet.mem_added, Std.TreeMap.mem_iff_isSome_getElem?,
    Std.TreeMap.mem_iff_isSome_getElem?, getElem?_hashes, getElem?_hashes]
  cases c.current[path]? <;> cases c.previous[path]? <;> simp

theorem mem_modified (c : FileCache H) (path : CanonicalPath) :
    path ∈ c.changes.modified ↔ ∃ r old, c.current[path]? = some r ∧
      c.previous[path]? = some old ∧ old.hash ≠ r.hash := by
  rw [changes, ChangeSet.mem_modified, getElem?_hashes, getElem?_hashes]
  cases c.current[path]? <;> cases c.previous[path]? <;> simp

theorem mem_unchanged (c : FileCache H) (path : CanonicalPath) :
    path ∈ c.changes.unchanged ↔ ∃ r old, c.current[path]? = some r ∧
      c.previous[path]? = some old ∧ old.hash = r.hash := by
  rw [changes, ChangeSet.mem_unchanged, getElem?_hashes, getElem?_hashes]
  cases c.current[path]? <;> cases c.previous[path]? <;> simp

theorem mem_deleted (c : FileCache H) (path : CanonicalPath) :
    path ∈ c.changes.deleted ↔ path ∈ c.previous ∧ path ∉ c.current := by
  rw [changes, ChangeSet.mem_deleted]
  simp only [Std.TreeMap.mem_iff_isSome_getElem?, getElem?_hashes, Option.isSome_map]

/-- Equal hashes mean equal texts where a path has two records. -/
def TellsApart (c : FileCache H) : Prop :=
  ∀ (path : CanonicalPath) (r old : FileRecord H), c.current[path]? = some r →
    c.previous[path]? = some old → old.hash = r.hash → old.contents = r.contents

theorem tellsApart_iff (c : FileCache H) :
    c.TellsApart ↔ ∀ f ∈ c.current.toList,
      (c.previous[f.1]?.all fun old => old.hash != f.2.hash || old.contents == f.2.contents) := by
  constructor
  · intro h f hf
    cases hold : c.previous[f.1]? with
    | none => rfl
    | some old =>
      have hcur := Std.TreeMap.mem_toList_iff_getElem?_eq_some.mp hf
      have hsame := h f.1 f.2 old hcur hold
      rw [Option.all_some, Bool.or_eq_true, bne_iff_ne, beq_iff_eq, ne_eq,
        ← Decidable.imp_iff_not_or]
      exact hsame
  · intro h path r old hr hold heq
    have hsame := h (path, r) (Std.TreeMap.mem_toList_iff_getElem?_eq_some.mpr hr)
    simpa [hold, heq] using hsame

instance (c : FileCache H) : Decidable c.TellsApart :=
  decidable_of_iff _ c.tellsApart_iff.symm

theorem Settled.mem_tagged {g : Generation H} {d : FileCache H} {past : List CacheEvent}
    {answers : List (Option (Admission H))} (h : Settled g d past answers) (hd : d.TellsApart)
    (path : CanonicalPath) :
    (path ∈ taggedPaths .fresh answers ↔
      path ∈ d.changes.added ++ d.changes.modified) ∧
    (path ∈ taggedPaths .previous answers ↔ path ∈ d.changes.unchanged) := by
  rw [h.tagged _ (by decide), h.tagged _ (by decide), List.mem_append, mem_added, mem_modified,
    mem_unchanged, ← h.previous]
  simp only [sourceIn, textIn]
  rcases Option.eq_none_or_eq_some d.current[path]? with hr | ⟨r, hr⟩
  · simp [hr]
  · rcases Option.eq_none_or_eq_some d.previous[path]? with hold | ⟨old, hold⟩
    · simp [hr, hold]
    · have hsame : old.hash = r.hash ↔ old.contents = r.contents := by
        constructor
        · exact hd path r old hr hold
        · intro hc
          rw [h.hashed path r (Or.inl hr), h.hashed path old (Or.inr hold), hc]
      by_cases hc : old.contents = r.contents <;> simp [hr, hold, hsame, hc]

theorem nodup_changes (c : FileCache H) : (c.changes.added ++ c.changes.modified).Nodup := by
  refine List.nodup_append.mpr ⟨ChangeSet.nodup_select (fun _ old => old.isNone) _ _,
    ChangeSet.nodup_select (fun hash old => old.isSome && old != some hash) _ _, ?_⟩
  rintro path hadded _ hmodified rfl
  obtain ⟨r, -, hnone⟩ := (c.mem_added path).mp hadded
  obtain ⟨_, old, -, hsome, -⟩ := (c.mem_modified path).mp hmodified
  rw [hnone] at hsome
  cases hsome

/-- The change set of a generation says how its files were admitted. The files that are new or
modified were parsed, each once, those that are unchanged were taken over from the generation
before, each once, and what else was admitted had come before. A file is deleted if the generation
before had it and this one has not admitted it. -/
theorem run_changes (currentDir : CanonicalPath) (dependencyDir : String) (s : σ)
    (requests : List (CacheRequest σ H)) (t : τ) (more : List (CacheRequest τ H))
    (hreset : .reset ∉ history currentDir more) (hsteady : Steady (history currentDir more))
    (happart : TellsApart
      (((empty currentDir dependencyDir).advance s requests).1.reset.advance t more).1) :
    let before : FileCache H := ((empty currentDir dependencyDir).advance s requests).1
    let changes := (before.reset.advance t more).1.changes
    let answers := before.reset.answers t more
    let calls := before.reset.calls t more
    (taggedPaths .fresh answers).Perm (changes.added ++ changes.modified) ∧
    (taggedPaths .previous answers).Perm changes.unchanged ∧
    (taggedPaths .fresh answers ++ taggedPaths .previous answers).Nodup ∧
    (∀ path, path ∈ admittedPaths answers ↔
      path ∈ taggedPaths .fresh answers ++ taggedPaths .previous answers) ∧
    calls.map ParseCall.name = (taggedPaths .fresh answers).map (·.relativeTo currentDir) ∧
    changes.dirtyCount = calls.length ∧
    (∀ path, path ∈ changes.deleted ↔ path ∈ before.current ∧ path ∉ admittedPaths answers) := by
  intro before changes answers calls
  have hdir : before.currentDir = currentDir :=
    empty_advance_currentDir currentDir dependencyDir s requests
  have hhashed := (remembers_advance (H := H) currentDir dependencyDir s requests).hashed
  rw [← hdir] at hreset hsteady
  have hsettled := settled_advance hhashed t more hreset hsteady
  have hmem := hsettled.mem_tagged happart
  have hfresh := hsettled.once .fresh (by decide)
  have htaken := hsettled.once .previous (by decide)
  have hperm : (taggedPaths .fresh answers).Perm (changes.added ++ changes.modified) :=
    (List.perm_ext_iff_of_nodup hfresh (nodup_changes _)).mpr fun path => (hmem path).1
  have hnames : calls.map ParseCall.name =
      (taggedPaths .fresh answers).map (·.relativeTo currentDir) := by
    rw [← hdir]
    exact before.reset.calls_names t more
  refine ⟨hperm, ?_, ?_, ?_, hnames, ?_, ?_⟩
  · exact (List.perm_ext_iff_of_nodup htaken
      (ChangeSet.nodup_select (fun hash old => old == some hash) _ _)).mpr
        fun path => (hmem path).2
  · refine List.nodup_append.mpr ⟨hfresh, htaken, ?_⟩
    rintro path hf _ ht rfl
    obtain ⟨_, hcur, hsource⟩ := (hsettled.tagged .fresh (by decide) path).mp hf
    obtain ⟨_, hcur', hsource'⟩ := (hsettled.tagged .previous (by decide) path).mp ht
    rw [hcur] at hcur'
    cases hcur'
    rw [hsource] at hsource'
    cases hsource'
  · intro path
    rw [hsettled.admitted, List.mem_append]
    exact hsettled.mem_current path
  · have hlength := congrArg List.length hnames
    rw [List.length_map, List.length_map] at hlength
    rw [ChangeSet.dirtyCount, ← List.length_append, ← hperm.length_eq, hlength]
  · intro path
    rw [mem_deleted, hsettled.previous, hsettled.admitted]

/-- One file is kept, one edited and admitted twice, one gone and one new. -/
theorem run_changes_edited :
    let parse : Parser Unit String := fun _ contents s => (contents, s)
    let requests : List (CacheRequest Unit String) :=
      [.addSource ⟨"kept.ts"⟩ "one" true parse, .addSource ⟨"edited.ts"⟩ "two" true parse,
        .addSource ⟨"gone.ts"⟩ "three" true parse]
    let more : List (CacheRequest Unit String) :=
      [.addSource ⟨"edited.ts"⟩ "four" true parse, .addSource ⟨"kept.ts"⟩ "one" true parse,
        .addSource ⟨"new.ts"⟩ "five" false parse, .addSource ⟨"edited.ts"⟩ "four" false parse]
    let before : FileCache String := ((empty ⟨true, []⟩ "node_modules").advance () requests).1
    let changes := (before.reset.advance () more).1.changes
    Steady (history ⟨true, []⟩ more) ∧ (before.reset.advance () more).1.TellsApart ∧
      (taggedPaths .fresh (before.reset.answers () more)).Perm
        (changes.added ++ changes.modified) ∧
      (taggedPaths .previous (before.reset.answers () more)).Perm changes.unchanged := by
  intro parse requests more before changes
  have hreset : .reset ∉ history ⟨true, []⟩ more := by simp [history, more, CacheRequest.event]
  have hsteady : Steady (history ⟨true, []⟩ more) := by decide +kernel
  have happart : (before.reset.advance () more).1.TellsApart := by decide +kernel
  have hrun := run_changes ⟨true, []⟩ "node_modules" () requests () more hreset hsteady happart
  exact ⟨hsteady, happart, hrun.1, hrun.2.1⟩

end FileCache

end Rebuild
