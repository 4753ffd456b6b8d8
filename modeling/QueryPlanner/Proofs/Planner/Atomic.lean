/-
  QueryPlanner.Proofs.Planner.Atomic

  What is left of a builder that fails: nothing.

  A builder reads the session and asks the catalog and the estimators first,
  and changes the session once, in its last step.  `Atomic` follows that
  order through a program: reading may fail, a step behind a change may not.
-/

import QueryPlanner.Proofs.Planner.Session

namespace QueryPlanner

open Planner

variable {α β γ : Type} {p q : Planner α}

namespace PlanM

/-! ## Programs that change all or nothing -/

/-- A run that fails leaves the session as it was. -/
def Atomic (m : PlanM α β) : Prop := ∀ p e q, m p = .error e q → q = p

/-- What comes behind a change cannot fail. -/
def Total (m : PlanM α β) : Prop := ∀ p, ∃ b q, m p = .ok b q

theorem total_pure (b : β) : (pure b : PlanM α β).Total := fun p => ⟨b, p, rfl⟩

theorem total_modify (f : Planner α → Planner α) : (modify f : PlanM α PUnit).Total :=
  fun p => ⟨⟨⟩, f p, rfl⟩

theorem Total.bind {x : PlanM α β} {f : β → PlanM α γ} (hx : x.Total) (hf : ∀ b, (f b).Total) :
    (x >>= f).Total := by
  intro p
  obtain ⟨b, q, hb⟩ := hx p
  rw [bind_of_ok hb]
  exact hf b q

theorem Total.atomic {m : PlanM α β} (hm : m.Total) : m.Atomic := by
  intro p e q h
  obtain ⟨b, r, hok⟩ := hm p
  rw [hok] at h
  exact nomatch h

namespace Atomic

protected theorem pure (b : β) : (pure b : PlanM α β).Atomic := (total_pure b).atomic

/-- Reading the session changes nothing, so all depends on what follows. -/
theorem get_bind {f : Planner α → PlanM α β} (hf : ∀ s, (f s).Atomic) :
    ((get : PlanM α (Planner α)) >>= f).Atomic :=
  fun p e q h => hf p p e q h

/-- So it is with a result that needs no session. -/
theorem ofExcept_bind {x : Except (PlanError α) β} {f : β → PlanM α γ}
    (hf : ∀ b, (f b).Atomic) : (ofExcept x >>= f).Atomic := by
  intro p e q h
  cases hx : x with
  | error e' =>
      rw [ofExcept_bind_of_error hx] at h
      cases h
      rfl
  | ok b =>
      rw [ofExcept_bind_of_ok hx] at h
      exact hf b p e q h

/-- A change of all or nothing stays one before steps that cannot fail. -/
theorem bind_total {x : PlanM α β} {f : β → PlanM α γ} (hx : x.Atomic) (hf : ∀ b, (f b).Total) :
    (x >>= f).Atomic := by
  intro p e q h
  cases hrun : x p with
  | error e' r =>
      rw [bind_of_error hrun] at h
      cases h
      exact hx p e q hrun
  | ok b r =>
      rw [bind_of_ok hrun] at h
      obtain ⟨c, s, hok⟩ := hf b r
      rw [hok] at h
      exact nomatch h

end Atomic

/-! ## The builders -/

variable [Number α]

theorem atomic_baseRelation (relid : RtIndex) : (baseRelation relid : PlanM α Nat).Atomic := by
  refine .get_bind fun s => ?_
  cases s.baseIds.lookup relid with
  | some id => exact .pure id
  | none =>
      refine .ofExcept_bind fun r => ?_
      exact ((total_modify _).bind fun _ => total_pure r.id).atomic

theorem atomic_addTarget (relid : RtIndex) (e : Expr α) : (addTarget relid e).Atomic :=
  (atomic_baseRelation relid).bind_total fun _ => total_modify _

theorem atomic_estimateSize (relid : RtIndex) : (estimateSize relid : PlanM α Unit).Atomic :=
  .get_bind fun _ => .ofExcept_bind fun _ => .ofExcept_bind fun _ => .ofExcept_bind fun _ =>
    (total_modify _).atomic

theorem atomic_addScans (id : Nat) : (addScans id : PlanM α Unit).Atomic :=
  .get_bind fun _ => .ofExcept_bind fun _ => .ofExcept_bind fun _ => (total_modify _).atomic

/-- All paths are costed before the first of them is offered. -/
theorem atomic_addJoins (join outer inner : Nat) (restrictions : List (Clause α))
    (type : JoinType) : (addJoins join outer inner restrictions type).Atomic :=
  .get_bind fun _ => .ofExcept_bind fun _ => .ofExcept_bind fun _ => .ofExcept_bind fun _ =>
    .ofExcept_bind fun _ => (total_modify _).atomic

theorem atomic_joinRelation (outer inner : Nat) :
    (joinRelation outer inner : PlanM α (Nat × List (Clause α))).Atomic := by
  intro p e q h
  rcases joinRelation_cases outer inner p with
    ⟨e', hrun⟩ | ⟨o, i, -, -, -, ⟨r, -, -, -, hrun⟩ | ⟨-, fraction, width, -, hrun⟩⟩
  · rw [hrun] at h
    cases h
    rfl
  · rw [hrun] at h
    exact nomatch h
  · rw [hrun] at h
    exact nomatch h

/-- A join that is asked for is there, or it is added behind the others. -/
theorem joinRelation_adds {outer inner : Nat} {join : Nat × List (Clause α)}
    (h : joinRelation outer inner p = .ok join q) :
    q = p ∨ ∃ r : Relation α, r.kind = .join ∧ q = p.addRelation r := by
  rcases joinRelation_cases outer inner p with
    ⟨e', hrun⟩ | ⟨o, i, -, -, -, ⟨r, -, -, -, hrun⟩ | ⟨-, fraction, width, -, hrun⟩⟩
  · rw [hrun] at h
    exact nomatch h
  · rw [hrun] at h
    cases h
    exact .inl rfl
  · rw [hrun] at h
    cases h
    exact .inr ⟨_, rfl, rfl⟩

end PlanM

/-! ## Requests -/

variable [Number α]

/-- The requests that build one thing: a relation, a column of its output, its
size or its paths. -/
def Request.builds : Request α → Bool
  | .baseRelation _ | .addTarget .. | .estimateSize _ => true
  | .joinRelation .. | .addScans _ | .addJoins .. => true
  | .distribute _ | .offer .. | .requestOrder _ | .search => false

/-- **Builders that fail leave the session as it was**, whatever they fail
at: relations, join info, sizes, paths and clauses without columns are those
from before.  A join that is built leaves the relations there are alone, and
adds one relation at most. -/
theorem builders_atomic :
    (∀ r : Request α, r.builds = true → ∀ p e q, r.run p = .error e q → q = p) ∧
      ∀ outer inner (p : Planner α) join q, PlanM.joinRelation outer inner p = .ok join q →
        q = p ∨ ∃ r : Relation α, r.kind = .join ∧ q = p.addRelation r := by
  constructor
  · intro r hr
    -- each request is a builder and an event behind it
    cases r with
    | baseRelation relid =>
        exact (PlanM.atomic_baseRelation relid).bind_total fun _ => PlanM.total_pure _
    | addTarget relid e =>
        exact (PlanM.atomic_addTarget relid e).bind_total fun _ => PlanM.total_pure _
    | estimateSize relid =>
        exact (PlanM.atomic_estimateSize relid).bind_total fun _ => PlanM.total_pure _
    | joinRelation outer inner =>
        exact (PlanM.atomic_joinRelation outer inner).bind_total fun _ => PlanM.total_pure _
    | addScans id => exact (PlanM.atomic_addScans id).bind_total fun _ => PlanM.total_pure _
    | addJoins join outer inner restrictions type =>
        exact (PlanM.atomic_addJoins join outer inner restrictions type).bind_total
          fun _ => PlanM.total_pure _
    | distribute | offer | requestOrder | search => exact nomatch hr
  · exact fun outer inner p join q h => PlanM.joinRelation_adds h

/-- A session over two base relations. -/
def twoBases : Planner Float :=
  (session [.baseRelation 1, .baseRelation 2] threeRelations).2

/-- A relation cannot be joined with itself, and two relations can be
joined. -/
theorem builders_atomic_twoBases :
    (∃ e q, (Request.joinRelation 0 0).run twoBases = .error e q ∧ q = twoBases) ∧
      ∃ join q, PlanM.joinRelation 0 1 twoBases = .ok join q ∧
        (q = twoBases ∨ ∃ r : Relation Float, r.kind = .join ∧ q = twoBases.addRelation r) := by
  constructor
  · cases hrun : (Request.joinRelation 0 0).run twoBases with
    | error e q => exact ⟨e, q, rfl, builders_atomic.1 _ rfl _ e q hrun⟩
    | ok event q =>
        have hsome : ((Request.joinRelation 0 0).run).succeeds twoBases = false := by
          decide +kernel
        rw [PlanM.succeeds, hrun] at hsome
        cases hsome
  · obtain ⟨join, q, hrun⟩ : ∃ join q, PlanM.joinRelation 0 1 twoBases = .ok join q :=
      PlanM.exists_ok_of_succeeds (by decide +kernel)
    exact ⟨join, q, hrun, builders_atomic.2 0 1 twoBases join q hrun⟩

/-- The distribution of a clause is none of them: it fails at the last
relation that the clause reads, and the first has been built. -/
example :
    (Request.distribute (conditionOn [1, 4])).run.succeeds threeRelations = false ∧
      ((Request.distribute (conditionOn [1, 4])).run.final threeRelations).relations.length = 1 := by
  decide +kernel

end QueryPlanner
