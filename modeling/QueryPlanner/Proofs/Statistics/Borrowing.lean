/-
  QueryPlanner.Proofs.Statistics.Borrowing

  The account of borrowed statistics.

  A history is any list of acquisitions and drops.  What the cache counts and
  remembers is stated in terms of the history alone: which guards were handed
  out and not dropped later, and what the provider said when a key was asked
  for the first time.  The provider may answer differently every time it is
  asked, so every acquisition brings the provider of its moment.
-/

import Mathlib.Data.Finset.Card
import Mathlib.Data.List.Lemmas
import QueryPlanner.Statistics.Cache

namespace QueryPlanner

variable {α : Type}

/-! ## Histories -/

/-- One use of a cache: statistics borrowed from the provider as it is then,
or a guard dropped. -/
inductive Borrowing.Use (α : Type) where
  | acquire (provider : StatisticsProvider α) (fetch : Fetch)
  | drop (guard : Nat)

namespace Borrowing

/-- What a use does. -/
def Use.run : Use α → Borrowing α → Borrowing α
  | .acquire p f, b => b.acquire p f
  | .drop guard, b => b.drop guard

/-- What a history leads to. -/
def run (uses : List (Use α)) : Borrowing α :=
  uses.foldl (fun b use => use.run b) empty

theorem run_concat (uses : List (Use α)) (use : Use α) :
    run (uses ++ [use]) = use.run (run uses) := by
  simp [run]

/-- What a use that acquires a key is told by its provider. -/
def Use.told? (key : Oid × AttrNumber) : Use α → Option (Option (ColumnStatistics α))
  | .acquire p f => if f.key = key then some (f.ask p) else none
  | .drop _ => none

/-- What the provider says at the first acquisition of a key. -/
def firstAnswer? (uses : List (Use α)) (key : Oid × AttrNumber) :
    Option (Option (ColumnStatistics α)) :=
  uses.findSome? (Use.told? key)

/-- Whether a use is an acquisition. -/
def Use.acquires : Use α → Bool
  | .acquire .. => true
  | .drop _ => false

/-- The acquisition with this number handed out statistics, and no later use
dropped its guard. -/
def Holds (uses : List (Use α)) (guard : Nat) (s : ColumnStatistics α) : Prop :=
  ∃ before p f after, uses = before ++ .acquire p f :: after ∧
    guard = before.countP Use.acquires ∧
    ((run before).cache.acquire p f).1 = some s ∧ ∀ use ∈ after, use ≠ .drop guard

/-! ## One acquisition -/

end Borrowing

namespace StatisticsCache

variable {c : StatisticsCache α} {p : StatisticsProvider α} {f g : Fetch}

/-- What a request reads: the remembered answer, else the provider's. -/
def answer (p : StatisticsProvider α) (f : Fetch) (c : StatisticsCache α) :
    Option (ColumnStatistics α) :=
  (c.remembered? f).getD (f.ask p)

theorem fetch_of_remembered {a : Option (ColumnStatistics α)} (h : c.remembered? f = some a) :
    c.fetch p f = c := by
  simp [fetch, h]

theorem fetch_of_new (h : c.remembered? f = none) :
    c.fetch p f = { c with
      snapshots := (f.key, f.ask p) :: c.snapshots
      fetches := c.fetches ++ [f] } := by
  simp [fetch, h]

/-- A request is remembered by its key, and nothing else is learned. -/
theorem remembered?_fetch (c : StatisticsCache α) (p : StatisticsProvider α) (f g : Fetch) :
    (c.fetch p f).remembered? g =
      if g.key = f.key then some (c.answer p f) else c.remembered? g := by
  cases h : c.remembered? f with
  | some a =>
      rw [fetch_of_remembered h, answer, h]
      split
      next hkey => rw [remembered?, hkey]; exact h
      next => rfl
  | none =>
      rw [fetch_of_new h, answer, h]
      by_cases hkey : g.key = f.key
      · simp [remembered?, hkey]
      · simp [remembered?, List.lookup_cons, hkey, beq_false_of_ne hkey]

/-- An acquisition reads its answer, and counts it if there are statistics. -/
theorem acquire_eq (c : StatisticsCache α) (p : StatisticsProvider α) (f : Fetch) :
    c.acquire p f = (c.answer p f, { c.fetch p f with
      outstanding := c.outstanding + if (c.answer p f).isSome then 1 else 0 }) := by
  have hcount : (c.fetch p f).outstanding = c.outstanding := by
    unfold fetch
    split <;> rfl
  have hread : (c.fetch p f).remembered? f = some (c.answer p f) := by
    simp [remembered?_fetch]
  simp only [acquire, hread]
  cases c.answer p f with
  | some s => simp [hcount]
  | none => simp [← hcount]

end StatisticsCache

namespace Borrowing

variable {p : StatisticsProvider α} {f g : Fetch} {uses before after : List (Use α)}

theorem acquire_eq (p : StatisticsProvider α) (f : Fetch) (b : Borrowing α) :
    b.acquire p f = ⟨(b.cache.acquire p f).2, b.guards ++ [b.cache.answer p f]⟩ := by
  simp [acquire, StatisticsCache.acquire_eq]

theorem outstanding_acquire (b : Borrowing α) (p : StatisticsProvider α) (f : Fetch) :
    (b.acquire p f).cache.outstanding =
      b.cache.outstanding + if (b.cache.answer p f).isSome then 1 else 0 := by
  rw [acquire_eq, StatisticsCache.acquire_eq]

/-- The new guard holds the answer, the others hold what they held. -/
theorem held?_acquire (b : Borrowing α) (p : StatisticsProvider α) (f : Fetch) (guard : Nat) :
    (b.acquire p f).held? guard =
      if guard = b.guards.length then b.cache.answer p f else b.held? guard := by
  simp only [held?, acquire_eq]
  rcases Nat.lt_trichotomy guard b.guards.length with hlt | rfl | hgt
  · rw [List.getElem?_append_left hlt, if_neg (by omega)]
  · simp
  · rw [List.getElem?_append_right (by omega), if_neg (by omega)]
    simp [List.getElem?_eq_none (Nat.le_of_lt hgt), show guard - b.guards.length ≠ 0 by omega]

/-- A dropped guard holds nothing, the others hold what they held. -/
theorem held?_drop (b : Borrowing α) (dropped guard : Nat) :
    (b.drop dropped).held? guard = if guard = dropped then none else b.held? guard := by
  unfold drop
  split
  next s hs =>
    by_cases h : dropped = guard
    · subst h
      rw [if_pos rfl, held?, List.getElem?_set_self']
      cases b.guards[dropped]? <;> rfl
    · simp [held?, List.getElem?_set_ne h, Ne.symm h]
  next hnone =>
    split
    next h => rw [h, hnone]
    next => rfl

/-- A drop asks for nothing and forgets nothing. -/
theorem cache_drop (b : Borrowing α) (guard : Nat) :
    ∃ n, (b.drop guard).cache = { b.cache with outstanding := n } := by
  unfold drop
  split
  next => exact ⟨_, rfl⟩
  next => exact ⟨b.cache.outstanding, rfl⟩

theorem length_guards_drop (b : Borrowing α) (guard : Nat) :
    (b.drop guard).guards.length = b.guards.length := by
  unfold drop
  split <;> simp

/-! ## What a history remembers -/

theorem firstAnswer?_concat (uses : List (Use α)) (use : Use α) (key : Oid × AttrNumber) :
    firstAnswer? (uses ++ [use]) key = (firstAnswer? uses key).or (use.told? key) := by
  simp [firstAnswer?, List.findSome?_append]

/-- The cache remembers what it was told first. -/
theorem remembered?_run (uses : List (Use α)) (f : Fetch) :
    (run uses).cache.remembered? f = firstAnswer? uses f.key := by
  induction uses using List.reverseRecOn with
  | nil => rfl
  | append_singleton uses use ih =>
      rw [run_concat, firstAnswer?_concat, ← ih]
      cases use with
      | drop guard =>
          obtain ⟨n, hcache⟩ := cache_drop (run uses) guard
          simp [Use.run, Use.told?, hcache, StatisticsCache.remembered?]
      | acquire p g =>
          simp only [Use.run, Use.told?, acquire_eq, StatisticsCache.acquire_eq]
          refine (StatisticsCache.remembered?_fetch (run uses).cache p g f).trans ?_
          by_cases hkey : f.key = g.key
          · have hsame : (run uses).cache.remembered? g = (run uses).cache.remembered? f := by
              simp [StatisticsCache.remembered?, hkey]
            rw [if_pos hkey, if_pos hkey.symm, StatisticsCache.answer, hsame]
            cases (run uses).cache.remembered? f <;> rfl
          · simp [if_neg hkey, if_neg (Ne.symm hkey)]

/-- An acquisition reads what was said first about its key. -/
theorem answer_run (uses : List (Use α)) (p : StatisticsProvider α) (f : Fetch) :
    (run uses).cache.answer p f = (firstAnswer? uses f.key).getD (f.ask p) := by
  rw [StatisticsCache.answer, remembered?_run]

/-- The requests are of different keys, those that the history acquires. -/
theorem fetches_run (uses : List (Use α)) :
    ((run uses).cache.fetches.map Fetch.key).Nodup ∧
      ∀ key, key ∈ (run uses).cache.fetches.map Fetch.key ↔ (firstAnswer? uses key).isSome := by
  induction uses using List.reverseRecOn with
  | nil => simp [run, empty, StatisticsCache.empty, firstAnswer?]
  | append_singleton uses use ih =>
      obtain ⟨hnodup, hmem⟩ := ih
      rw [run_concat]
      cases use with
      | drop guard =>
          obtain ⟨n, hcache⟩ := cache_drop (run uses) guard
          simp only [Use.run, hcache, firstAnswer?_concat, Use.told?, Option.or_none]
          exact ⟨hnodup, hmem⟩
      | acquire p f =>
          simp only [Use.run, acquire_eq, StatisticsCache.acquire_eq, firstAnswer?_concat,
            Use.told?]
          cases hfirst : firstAnswer? uses f.key with
          | some a =>
              rw [StatisticsCache.fetch_of_remembered ((remembered?_run uses f).trans hfirst)]
              refine ⟨hnodup, fun key => ?_⟩
              by_cases hkey : f.key = key
              · subst hkey
                simp [hmem, hfirst]
              · simp [hmem, hkey]
          | none =>
              rw [StatisticsCache.fetch_of_new ((remembered?_run uses f).trans hfirst)]
              have hnew : f.key ∉ (run uses).cache.fetches.map Fetch.key := by
                simp [hmem, hfirst]
              refine ⟨?_, fun key => ?_⟩
              · rw [List.map_append]
                exact hnodup.append (List.nodup_singleton _) (by simpa using hnew)
              · rw [List.map_append, List.mem_append, hmem]
                by_cases hkey : f.key = key
                · simp [hkey]
                · simp [hkey, Ne.symm hkey]

/-! ## What a history holds -/

theorem length_guards_run (uses : List (Use α)) :
    (run uses).guards.length = uses.countP Use.acquires := by
  induction uses using List.reverseRecOn with
  | nil => rfl
  | append_singleton uses use ih =>
      rw [run_concat]
      cases use with
      | acquire p f => simp [Use.run, acquire_eq, ih, Use.acquires]
      | drop guard => simp [Use.run, length_guards_drop, ih, Use.acquires]

/-- A history ends with an acquisition, or it goes on after it. -/
theorem holds_concat (uses : List (Use α)) (use : Use α) (guard : Nat)
    (s : ColumnStatistics α) :
    Holds (uses ++ [use]) guard s ↔
      (Holds uses guard s ∧ use ≠ .drop guard) ∨
        ∃ p f, use = .acquire p f ∧ guard = uses.countP Use.acquires ∧
          ((run uses).cache.acquire p f).1 = some s := by
  constructor
  · rintro ⟨before, p, f, after, huses, hguard, hread, hkept⟩
    rcases List.eq_nil_or_concat' after with rfl | ⟨rest, last, rfl⟩
    · obtain ⟨rfl, huse⟩ := List.append_inj' huses rfl
      exact .inr ⟨p, f, by simpa using huse, hguard, hread⟩
    · rw [← List.cons_append, ← List.append_assoc] at huses
      obtain ⟨rfl, huse⟩ := List.append_inj' huses rfl
      have hlast : use = last := by simpa using huse
      subst hlast
      refine .inl ⟨⟨before, p, f, rest, rfl, hguard, hread, fun u hu => ?_⟩, ?_⟩
      · exact hkept u (by simp [hu])
      · exact hkept use (by simp)
  · rintro (⟨⟨before, p, f, after, rfl, hguard, hread, hkept⟩, huse⟩ | ⟨p, f, rfl, hguard, hread⟩)
    · refine ⟨before, p, f, after ++ [use], by simp, hguard, hread, fun u hu => ?_⟩
      rcases List.mem_append.mp hu with hu | hu
      · exact hkept u hu
      · rw [List.mem_singleton.mp hu]
        exact huse
    · exact ⟨uses, p, f, [], rfl, hguard, hread, by simp⟩

/-- A guard holds what it was handed out with until it is dropped. -/
theorem held?_run (uses : List (Use α)) (guard : Nat) (s : ColumnStatistics α) :
    (run uses).held? guard = some s ↔ Holds uses guard s := by
  induction uses using List.reverseRecOn with
  | nil => simp [run, empty, held?, Holds]
  | append_singleton uses use ih =>
      rw [run_concat, holds_concat, ← ih]
      cases use with
      | acquire p f =>
          simp only [Use.run, held?_acquire, length_guards_run, StatisticsCache.acquire_eq]
          by_cases hguard : guard = uses.countP Use.acquires
          · -- the guard is the next one, so it held nothing before
            have hnone : (run uses).held? guard = none := by
              rw [held?, List.getElem?_eq_none (by rw [length_guards_run]; omega)]
              rfl
            simp [hnone, ← hguard]
          · simp [hguard]
      | drop dropped =>
          simp only [Use.run, held?_drop]
          by_cases hguard : guard = dropped
          · simp [hguard]
          · simp [hguard, Ne.symm hguard]

/-- What is counted are the guards that hold something. -/
theorem exists_alive (uses : List (Use α)) :
    ∃ alive : Finset Nat, (∀ guard, guard ∈ alive ↔ ((run uses).held? guard).isSome) ∧
      (run uses).cache.outstanding = alive.card := by
  induction uses using List.reverseRecOn with
  | nil => exact ⟨∅, by simp [run, empty, held?], rfl⟩
  | append_singleton uses use ih =>
      obtain ⟨alive, hmem, hcount⟩ := ih
      rw [run_concat]
      cases use with
      | acquire p f =>
          simp only [Use.run, held?_acquire, outstanding_acquire]
          have hnew : (run uses).guards.length ∉ alive := by
            simp [hmem, held?]
          cases (run uses).cache.answer p f with
          | some s =>
              refine ⟨insert (run uses).guards.length alive, fun guard => ?_, ?_⟩
              · by_cases h : guard = (run uses).guards.length <;> simp [h, hmem]
              · simp [Finset.card_insert_of_notMem hnew, hcount]
          | none =>
              refine ⟨alive, fun guard => ?_, by simp [hcount]⟩
              by_cases h : guard = (run uses).guards.length
              · simp [h, hnew]
              · simp [h, hmem]
      | drop dropped =>
          simp only [Use.run, held?_drop]
          cases hheld : (run uses).held? dropped with
          | some s =>
              have hin : dropped ∈ alive := by simp [hmem, hheld]
              refine ⟨alive.erase dropped, fun guard => ?_, ?_⟩
              · by_cases h : guard = dropped <;> simp [h, hmem]
              · rw [Finset.card_erase_of_mem hin, ← hcount]
                simp [drop, hheld, StatisticsCache.release]
          | none =>
              refine ⟨alive, fun guard => ?_, by simp [drop, hheld, hcount]⟩
              by_cases h : guard = dropped
              · simp [h, hmem, hheld]
              · simp [h, hmem]

/-! ## The account -/

/-- What is promised after a history of uses. -/
structure Accounted (uses : List (Use α)) : Prop where
  /-- What is counted are the guards handed out and not dropped. -/
  counted : ∃ alive : Finset Nat, (∀ guard, guard ∈ alive ↔ ∃ s, Holds uses guard s) ∧
    (run uses).cache.outstanding = alive.card
  /-- Such a guard still reads what it was handed out with. -/
  reads : ∀ guard s, Holds uses guard s → (run uses).held? guard = some s
  /-- Dropping it takes one from a count that is not zero. -/
  dropped : ∀ guard s, Holds uses guard s →
    ((run uses).drop guard).cache.outstanding + 1 = (run uses).cache.outstanding
  /-- An acquisition without statistics hands out nothing and counts nothing. -/
  absent : ∀ p f, ((run uses).cache.acquire p f).1 = none →
    ((run uses).acquire p f).cache.outstanding = (run uses).cache.outstanding ∧
      ∀ guard, ((run uses).acquire p f).held? guard = (run uses).held? guard
  /-- One with statistics counts one. -/
  present : ∀ p f s, ((run uses).cache.acquire p f).1 = some s →
    ((run uses).acquire p f).cache.outstanding = (run uses).cache.outstanding + 1
  /-- The provider was asked once for a key. -/
  asked : ((run uses).cache.fetches.map Fetch.key).Nodup
  /-- It is asked for a key that is new, -/
  first : ∀ p f, (∀ p' g, Use.acquire p' g ∈ uses → g.key ≠ f.key) →
    ((run uses).cache.acquire p f).1 = f.ask p ∧
      ((run uses).cache.acquire p f).2.fetches = (run uses).cache.fetches ++ [f]
  /-- and not again: whatever it would say now, the first answer is read. -/
  later : ∀ before p f after, uses = before ++ .acquire p f :: after →
    ∀ p' g, g.key = f.key →
      ((run uses).cache.acquire p' g).1 = ((run before).cache.acquire p f).1 ∧
        ((run uses).cache.acquire p' g).2.fetches = (run uses).cache.fetches

theorem firstAnswer?_eq_none (h : ∀ p g, Use.acquire p g ∈ uses → g.key ≠ f.key) :
    firstAnswer? uses f.key = none := by
  refine List.findSome?_eq_none_iff.mpr fun use huse => ?_
  cases use with
  | acquire p g => simp [Use.told?, h p g huse]
  | drop guard => rfl

/-- The first answer is the one that any acquisition of the key reads. -/
theorem firstAnswer?_of_acquired :
    firstAnswer? (before ++ .acquire p f :: after) f.key =
      some ((run before).cache.answer p f) := by
  rw [answer_run, firstAnswer?, List.findSome?_append, ← firstAnswer?]
  cases firstAnswer? before f.key <;> simp [Use.told?]

/-- Nobody else holds the next guard. -/
theorem held?_length_guards (b : Borrowing α) : b.held? b.guards.length = none := by
  simp [held?]

/-- **Borrows are accounted for.**  Whatever a cache was used for, in any
order and with a provider that may change its mind: its count is the number of
guards handed out and not dropped and never falls below zero, absent
statistics hand out nothing, and a key is asked for once, however it turned
out. -/
theorem borrows_accounted (uses : List (Use α)) : Accounted uses where
  counted := by
    obtain ⟨alive, hmem, hcount⟩ := exists_alive uses
    refine ⟨alive, fun guard => ?_, hcount⟩
    rw [hmem, Option.isSome_iff_exists]
    exact exists_congr fun s => held?_run uses guard s
  reads := fun guard s hs => (held?_run uses guard s).mpr hs
  dropped := by
    intro guard s hs
    have hheld : (run uses).held? guard = some s := (held?_run uses guard s).mpr hs
    obtain ⟨alive, hmem, hcount⟩ := exists_alive uses
    have hin : guard ∈ alive := by simp [hmem, hheld]
    have hpos : 0 < (run uses).cache.outstanding := by
      rw [hcount]
      exact Finset.card_pos.mpr ⟨guard, hin⟩
    simp only [drop, hheld, StatisticsCache.release]
    omega
  absent := by
    intro p f hnone
    have hanswer : (run uses).cache.answer p f = none := by
      simpa [StatisticsCache.acquire_eq] using hnone
    refine ⟨by simp [outstanding_acquire, hanswer], fun guard => ?_⟩
    rw [held?_acquire, hanswer]
    split
    next h => rw [h, held?_length_guards]
    next => rfl
  present := by
    intro p f s hs
    have hanswer : (run uses).cache.answer p f = some s := by
      simpa [StatisticsCache.acquire_eq] using hs
    simp [outstanding_acquire, hanswer]
  asked := (fetches_run uses).1
  first := by
    intro p f hnew
    have hfirst := firstAnswer?_eq_none hnew
    simp only [StatisticsCache.acquire_eq, answer_run, hfirst]
    rw [StatisticsCache.fetch_of_new ((remembered?_run uses f).trans hfirst)]
    exact ⟨rfl, rfl⟩
  later := by
    rintro before p f after rfl p' g hkey
    have hfirst : firstAnswer? (before ++ .acquire p f :: after) f.key =
        some ((run before).cache.answer p f) := firstAnswer?_of_acquired
    simp only [StatisticsCache.acquire_eq, answer_run _ p' g, hkey, hfirst]
    rw [StatisticsCache.fetch_of_remembered ((remembered?_run _ g).trans (hkey ▸ hfirst))]
    exact ⟨rfl, rfl⟩

/-- A column with statistics and a column without. -/
def oneColumn : StatisticsProvider Nat where
  column id n := if id = 1 ∧ n = 1 then some ⟨1, 4, 5, []⟩ else none
  index _ _ := none

/-- Two guards of the one column, one of them dropped, and no guard of the
other column. -/
theorem borrows_accounted_oneColumn :
    let uses := [.acquire oneColumn (.column 1 1), .acquire oneColumn (.column 1 1),
      .acquire oneColumn (.column 1 2), .drop 0]
    Accounted uses ∧ (run uses).cache.outstanding = 1 ∧
      (run uses).cache.fetches = [.column 1 1, .column 1 2] :=
  ⟨borrows_accounted _, by decide, by decide⟩

end Borrowing

end QueryPlanner
