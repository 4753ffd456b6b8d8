/-
  QueryPlanner.Proofs.Statistics.Transparency

  When a cache answers what its provider would.

  An answer is remembered under an identifier and a position, whichever way it
  was asked for.  So an acquisition reads what the provider says to the first
  request for its key, and that is its own answer unless the first one was of
  the other kind and answered otherwise.  A store keeps index columns under the
  identifier of the index and answers both kinds alike: over a store the cache
  cannot be noticed.
-/

import QueryPlanner.Proofs.Statistics.Borrowing

namespace QueryPlanner

variable {α : Type}

namespace Borrowing

variable {p : StatisticsProvider α} {uses : List (Use α)} {f : Fetch}

/-! ## Histories with one provider -/

/-- Every acquisition of the history asked this provider, which always answers
the same. -/
def Steady (p : StatisticsProvider α) (uses : List (Use α)) : Prop :=
  ∀ q f, Use.acquire q f ∈ uses → q = p

/-- The request for a key that a use makes. -/
def Use.request? (key : Oid × AttrNumber) : Use α → Option Fetch
  | .acquire _ f => if f.key = key then some f else none
  | .drop _ => none

/-- The first request for a key. -/
def firstRequest? (uses : List (Use α)) (key : Oid × AttrNumber) : Option Fetch :=
  uses.findSome? (Use.request? key)

theorem key_of_firstRequest? {key : Oid × AttrNumber} (h : firstRequest? uses key = some f) :
    f.key = key := by
  obtain ⟨use, -, hrequest⟩ := List.exists_of_findSome?_eq_some h
  cases use with
  | acquire q g =>
      rw [Use.request?] at hrequest
      split_ifs at hrequest with hkey
      cases hrequest
      exact hkey
  | drop guard => cases hrequest

/-- What was said first about a key is the answer to the first request. -/
theorem firstAnswer?_of_steady (h : Steady p uses) (key : Oid × AttrNumber) :
    firstAnswer? uses key = (firstRequest? uses key).map (·.ask p) := by
  induction uses with
  | nil => rfl
  | cons use uses ih =>
      have hrest := ih fun q f hmem => h q f (List.mem_cons_of_mem use hmem)
      rw [firstAnswer?, firstRequest?] at hrest ⊢
      rw [List.findSome?_cons, List.findSome?_cons, hrest]
      cases use with
      | drop guard => rfl
      | acquire q g =>
          rw [h q g List.mem_cons_self, Use.told?, Use.request?]
          split_ifs <;> rfl

/-- An acquisition reads the answer to the first request for its key. -/
theorem acquire_of_steady (h : Steady p uses) (f : Fetch) :
    ((run uses).cache.acquire p f).1 = ((firstRequest? uses f.key).getD f).ask p := by
  rw [StatisticsCache.acquire_eq]
  dsimp only
  rw [answer_run, firstAnswer?_of_steady h]
  cases firstRequest? uses f.key <;> rfl

/-! ## Transparency -/

theorem ask_eq_of_key (h : ∀ id n, p.column id n = p.index id n) {g : Fetch}
    (hkey : g.key = f.key) : g.ask p = f.ask p := by
  cases g <;> cases f <;> cases hkey <;> simp [Fetch.ask, h]

/-- A provider that answers both kinds of request alike is read as it is. -/
theorem acquire_of_alike (halike : ∀ id n, p.column id n = p.index id n) (h : Steady p uses)
    (f : Fetch) : ((run uses).cache.acquire p f).1 = f.ask p := by
  rw [acquire_of_steady h]
  cases hfirst : firstRequest? uses f.key with
  | none => rfl
  | some g => exact ask_eq_of_key halike (key_of_firstRequest? hfirst)

/-- **When a cache is transparent.**  After any history with one provider an
acquisition reads what the provider says to it, exactly if that is what the
provider says to the first request for the key.  It always is, exactly if the
provider answers for columns and index columns alike. -/
theorem acquire_transparent_iff (p : StatisticsProvider α) :
    (∀ uses, Steady p uses → ∀ f, ((run uses).cache.acquire p f).1 = f.ask p ↔
      ∀ g, firstRequest? uses f.key = some g → g.ask p = f.ask p) ∧
    ((∀ uses, Steady p uses → ∀ f, ((run uses).cache.acquire p f).1 = f.ask p) ↔
      ∀ id n, p.column id n = p.index id n) := by
  refine ⟨fun uses h f => ?_, fun htransparent id n => ?_, fun halike uses h f => ?_⟩
  · rw [acquire_of_steady h]
    cases hfirst : firstRequest? uses f.key with
    | none => exact iff_of_true rfl nofun
    | some g => simp only [Option.getD_some, Option.some.injEq, forall_eq']
  · -- The column is asked for first, and the index column reads its answer.
    have hsteady : Steady p [.acquire p (.column id n)] := by
      intro q f hmem
      cases List.mem_singleton.mp hmem
      rfl
    have hindex := htransparent _ hsteady (.index id n)
    rw [acquire_of_steady hsteady] at hindex
    have hfirst : firstRequest? [Use.acquire p (.column id n)] (Fetch.index id n).key =
        some (.column id n) := by
      simp [firstRequest?, Use.request?, Fetch.key]
    rwa [hfirst] at hindex
  · exact acquire_of_alike halike h f

/-- A provider that keeps the first column of an index apart from that of the
relation with the same identifier. -/
def keptApart : StatisticsProvider Nat where
  column id n := if id = 1 ∧ n = 1 then some ⟨1, 4, 5, []⟩ else none
  index id n := if id = 1 ∧ n = 1 then some ⟨3, 4, 5, []⟩ else none

theorem steady_keptApart : Steady keptApart [.acquire keptApart (.column 1 1), .drop 0] := by
  intro q f hmem
  cases hmem with
  | head => rfl
  | tail _ hmem => cases List.mem_singleton.mp hmem

/-- The column can be read again, also after its guard was dropped. -/
theorem acquire_transparent_iff_keptApart :
    Steady keptApart [.acquire keptApart (.column 1 1), .drop 0] ∧
      ((run [.acquire keptApart (.column 1 1), .drop 0]).cache.acquire keptApart (.column 1 1)).1 =
        Fetch.ask keptApart (.column 1 1) := by
  refine ⟨steady_keptApart, ?_⟩
  refine ((acquire_transparent_iff keptApart).1 _ steady_keptApart (.column 1 1)).mpr ?_
  intro g hfirst
  cases hfirst
  rfl

/-- The index column cannot: it reads what was remembered for the column. -/
theorem acquire_misses_index :
    Steady keptApart [.acquire keptApart (.column 1 1), .drop 0] ∧
      ((run [.acquire keptApart (.column 1 1), .drop 0]).cache.acquire keptApart
        (.index 1 1)).1.map (·.nullFraction) = some 1 ∧
      (Fetch.ask keptApart (.index 1 1)).map (·.nullFraction) = some 3 :=
  ⟨steady_keptApart, by decide, by decide⟩

end Borrowing

end QueryPlanner
