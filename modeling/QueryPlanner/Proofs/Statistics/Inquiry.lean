/-
  QueryPlanner.Proofs.Statistics.Inquiry

  What a cache makes of computations that ask for statistics.

  A computation asks one request at a time, and what it asks next may depend
  on the answers.  Over a cache it is answered with what was said first about
  each key, and in the end these answers are those of one provider, the `view`
  of the history.  So over a cache a computation comes to what it comes to
  over a provider that never changes its mind, even if the one behind the
  cache did.
-/

import QueryPlanner.Proofs.Statistics.Transparency

namespace QueryPlanner

open Borrowing

variable {α β γ : Type}

/-! ## Computations that ask -/

/-- A computation that asks for statistics, and may drop guards in between. -/
inductive Inquiry (α β : Type) where
  | done (result : β)
  | ask (fetch : Fetch) (next : Option (ColumnStatistics α) → Inquiry α β)
  | drop (guard : Nat) (rest : Inquiry α β)

namespace Inquiry

/-- What it comes to if a provider answers. -/
def outcome (s : StatisticsProvider α) : Inquiry α β → β
  | done b => b
  | ask f next => (next (f.ask s)).outcome s
  | drop _ rest => rest.outcome s

/-- What it comes to if a cache answers that was used before, and the uses up
to its end.  The provider behind the cache may depend on the moment. -/
def through (now : List (Use α) → StatisticsProvider α) :
    Inquiry α β → List (Use α) → β × List (Use α)
  | done b, uses => (b, uses)
  | ask f next, uses =>
      (next ((run uses).cache.acquire (now uses) f).1).through now
        (uses ++ [.acquire (now uses) f])
  | drop guard rest, uses => rest.through now (uses ++ [.drop guard])

/-- One computation behind another. -/
def bind (f : β → Inquiry α γ) : Inquiry α β → Inquiry α γ
  | done b => f b
  | ask fetch next => ask fetch fun s => (next s).bind f
  | drop guard rest => drop guard (rest.bind f)

theorem outcome_bind (r : Inquiry α β) (f : β → Inquiry α γ) (s : StatisticsProvider α) :
    (r.bind f).outcome s = (f (r.outcome s)).outcome s := by
  induction r with
  | done b => rfl
  | ask fetch next ih => exact ih (fetch.ask s)
  | drop guard rest ih => exact ih

/-- A computation adds its uses to the history. -/
theorem exists_through_eq_append (now : List (Use α) → StatisticsProvider α) (r : Inquiry α β)
    (uses : List (Use α)) : ∃ more, (r.through now uses).2 = uses ++ more := by
  induction r generalizing uses with
  | done b => exact ⟨[], (List.append_nil uses).symm⟩
  | ask f next ih =>
      obtain ⟨more, h⟩ := ih ((run uses).cache.acquire (now uses) f).1
        (uses ++ [.acquire (now uses) f])
      exact ⟨.acquire (now uses) f :: more, by rw [through, h, List.append_assoc]; rfl⟩
  | drop guard rest ih =>
      obtain ⟨more, h⟩ := ih (uses ++ [.drop guard])
      exact ⟨.drop guard :: more, by rw [through, h, List.append_assoc]; rfl⟩

end Inquiry

/-! ## The view of a history -/

namespace Borrowing

variable {p : StatisticsProvider α} {uses : List (Use α)}

/-- The provider that always says what was said first.  Of keys that were not
asked for, another one decides. -/
def view (uses : List (Use α)) (rest : StatisticsProvider α) : StatisticsProvider α where
  column id n := (firstAnswer? uses (id, n)).getD (rest.column id n)
  index id n := (firstAnswer? uses (id, n)).getD (rest.index id n)

theorem ask_view (uses : List (Use α)) (rest : StatisticsProvider α) (f : Fetch) :
    f.ask (view uses rest) = (firstAnswer? uses f.key).getD (f.ask rest) := by
  cases f with
  | column id n => rfl
  | index id n => rfl

/-- Every acquisition of a history was answered as its view answers. -/
theorem ask_view_of_acquired (before after : List (Use α)) (p rest : StatisticsProvider α)
    (f : Fetch) : f.ask (view (before ++ .acquire p f :: after) rest) =
      ((run before).cache.acquire p f).1 := by
  rw [ask_view, firstAnswer?_of_acquired, StatisticsCache.acquire_eq]
  rfl

/-- Behind one provider that answers both kinds of request alike, the view is
this provider. -/
theorem view_of_alike (halike : ∀ id n, p.column id n = p.index id n) (h : Steady p uses) :
    view uses p = p := by
  have hanswer (f : Fetch) : (firstAnswer? uses f.key).getD (f.ask p) = f.ask p := by
    rw [← answer_run]
    exact (congrArg Prod.fst (StatisticsCache.acquire_eq _ p f)).symm.trans
      (acquire_of_alike halike h f)
  rw [view]
  congr 1
  · funext id n
    exact hanswer (.column id n)
  · funext id n
    exact hanswer (.index id n)

end Borrowing

namespace Inquiry

variable {p : StatisticsProvider α} {uses : List (Use α)}

/-- Over a cache a computation comes to what it comes to over the view of the
history at its end. -/
theorem through_eq_outcome_view (now : List (Use α) → StatisticsProvider α) (r : Inquiry α β)
    (uses : List (Use α)) (rest : StatisticsProvider α) :
    (r.through now uses).1 = r.outcome (view (r.through now uses).2 rest) := by
  induction r generalizing uses with
  | done b => rfl
  | ask f next ih =>
      rw [through, outcome, ih]
      congr 2
      -- The answer given now is the one that the whole history stands by.
      obtain ⟨more, h⟩ := exists_through_eq_append now
        (next ((run uses).cache.acquire (now uses) f).1) (uses ++ [.acquire (now uses) f])
      rw [h, List.append_assoc]
      exact (ask_view_of_acquired uses more (now uses) rest f).symm
  | drop guard rest' ih => exact ih _

/-- What a computation asks of one provider is a history with this one. -/
theorem steady_through (r : Inquiry α β) (h : Steady p uses) :
    Steady p (r.through (fun _ => p) uses).2 := by
  induction r generalizing uses with
  | done b => exact h
  | ask f next ih =>
      refine ih _ fun q g hmem => ?_
      rcases List.mem_append.mp hmem with hmem | hmem
      · exact h q g hmem
      · cases List.mem_singleton.mp hmem
        rfl
  | drop guard rest ih =>
      refine ih fun q g hmem => ?_
      rcases List.mem_append.mp hmem with hmem | hmem
      · exact h q g hmem
      · cases List.mem_singleton.mp hmem

/-- Behind one provider that answers both kinds of request alike, the cache
cannot be noticed. -/
theorem through_eq_outcome (halike : ∀ id n, p.column id n = p.index id n) (h : Steady p uses)
    (r : Inquiry α β) : (r.through (fun _ => p) uses).1 = r.outcome p := by
  rw [through_eq_outcome_view (fun _ => p) r uses p, view_of_alike halike (steady_through r h)]

end Inquiry

/-! ## Functions of statistics -/

/-- A function of a provider that some computation finds by asking. -/
def Consults (g : StatisticsProvider α → β) : Prop :=
  ∃ r : Inquiry α β, ∀ s, r.outcome s = g s

namespace Consults

variable {ε : Type} {g : StatisticsProvider α → β}

theorem const (b : β) : Consults fun _ : StatisticsProvider α => b :=
  ⟨.done b, fun _ => rfl⟩

/-- What does not depend on the provider needs no request. -/
theorem of_same (h : ∀ s s', g s = g s') : Consults g :=
  ⟨.done (g ⟨fun _ _ => none, fun _ _ => none⟩), fun s => h _ s⟩

theorem ask (f : Fetch) : Consults fun s : StatisticsProvider α => f.ask s :=
  ⟨.ask f .done, fun _ => rfl⟩

theorem column (id : Oid) (n : AttrNumber) :
    Consults fun s : StatisticsProvider α => s.column id n := ask (.column id n)

theorem index (id : Oid) (n : AttrNumber) :
    Consults fun s : StatisticsProvider α => s.index id n := ask (.index id n)

/-- What is asked behind an answer may depend on it. -/
theorem bind {f : β → StatisticsProvider α → γ} (hg : Consults g) (hf : ∀ b, Consults (f b)) :
    Consults fun s => f (g s) s := by
  obtain ⟨r, hr⟩ := hg
  choose next hnext using hf
  exact ⟨r.bind next, fun s => by rw [Inquiry.outcome_bind, hr, hnext]⟩

theorem map (f : β → γ) (hg : Consults g) : Consults fun s => f (g s) :=
  hg.bind fun b => const (f b)

theorem except_bind {x : StatisticsProvider α → Except ε β}
    {f : StatisticsProvider α → β → Except ε γ} (hx : Consults x)
    (hf : ∀ b, Consults fun s => f s b) : Consults fun s => x s >>= f s := by
  refine hx.bind (f := fun x s => x >>= f s) fun x => ?_
  cases x with
  | error e => exact const (Except.error e)
  | ok b => exact hf b

theorem mapM {f : StatisticsProvider α → β → Except ε γ} (hf : ∀ b, Consults fun s => f s b)
    (l : List β) : Consults fun s => l.mapM (f s) := by
  induction l with
  | nil => exact const (Except.ok [])
  | cons b rest ih =>
      simp only [List.mapM_cons]
      exact (hf b).except_bind fun c => ih.except_bind fun cs => const _

theorem foldlM {f : StatisticsProvider α → β → γ → Except ε β}
    (hf : ∀ b c, Consults fun s => f s b c) (l : List γ) (b : β) :
    Consults fun s => l.foldlM (f s) b := by
  induction l generalizing b with
  | nil => exact const (Except.ok b)
  | cons c rest ih =>
      simp only [List.foldlM_cons]
      exact (hf b c).except_bind ih

end Consults

end QueryPlanner
