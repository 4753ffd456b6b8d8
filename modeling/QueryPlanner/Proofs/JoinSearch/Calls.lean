/-
  QueryPlanner.Proofs.JoinSearch.Calls

  The calls that a search makes.

  A search reads the state and decides; what changes the state is left to
  three builders, of scans, of joins and of join paths.  A `Script` shows that
  a program is made like this, and lists the calls of a run up to the first
  that fails, each with the state it is made in.  With it an outcome can be
  stated that blames a failure of the program on one of its calls.
-/

import QueryPlanner.Proofs.JoinSearch.Connected

namespace QueryPlanner

open PlanM

variable {α : Type} [Number α] {β γ : Type} {p q : Planner α}

/-! ## Calls -/

/-- A call of a builder of paths or joins. -/
inductive Call (α : Type) where
  | scans (id : Nat)
  | join (outer inner : Nat)
  | paths (join outer inner : Nat) (restrictions : List (Clause α)) (type : JoinType)

namespace Call

/-- What a call returns. -/
def Result : Call α → Type
  | .scans _ | .paths .. => Unit
  | .join .. => Nat × List (Clause α)

/-- The builder that is called. -/
def run : (c : Call α) → PlanM α c.Result
  | .scans id => addScans id
  | .join outer inner => joinRelation outer inner
  | .paths id outer inner restrictions type => addJoins id outer inner restrictions type

/-- The error that a call returns. -/
def error? (c : Call α) (p : Planner α) : Option (PlanError α) :=
  match c.run p with
  | .ok _ _ => none
  | .error e _ => some e

end Call

/-! ## Scripts -/

/-- A program that does no more than read the state and call builders. -/
inductive Script : {β : Type} → PlanM α β → Type 1
  | pure {β : Type} (b : β) : Script (pure b)
  | throw {β : Type} (e : PlanError α) : Script (throw e : PlanM α β)
  | get : Script get
  | ofExcept {β : Type} (x : Except (PlanError α) β) : Script (PlanM.ofExcept x)
  | call (c : Call α) : Script c.run
  | bind {β γ : Type} {x : PlanM α β} {f : β → PlanM α γ} (first : Script x)
      (rest : ∀ b, Script (f b)) : Script (x >>= f)

namespace Script

/-- The calls of a run and the states they are made in.  A call that fails is
the last one. -/
def calls : {β : Type} → {m : PlanM α β} → Script m → Planner α → List (Call α × Planner α)
  | _, _, .call c, p => [(c, p)]
  | _, _, .bind (x := x) first rest, p =>
    first.calls p ++
      match x p with
      | .ok b q => (rest b).calls q
      | .error _ _ => []
  | _, _, .pure _, _ | _, _, .throw _, _ | _, _, .get, _ | _, _, .ofExcept _, _ => []

/-- A choice between two programs. -/
def ite {c : Prop} [inst : Decidable c] {x y : PlanM α β} (then' : Script x) (else' : Script y) :
    Script (if c then x else y) :=
  match inst with
  | .isTrue _ => then'
  | .isFalse _ => else'

/-- A loop with a result that is carried along. -/
def foldlM {f : β → γ → PlanM α β} (step : ∀ b x, Script (f b x)) :
    (l : List γ) → (b : β) → Script (l.foldlM f b)
  | [], b => .pure b
  | x :: rest, b => .bind (step b x) fun b => foldlM step rest b

def forM {f : γ → PlanM α PUnit} (step : ∀ x, Script (f x)) : (l : List γ) → Script (l.forM f)
  | [] => .pure _
  | x :: rest => .bind (step x) fun _ => forM step rest

/-- No call of a run that succeeds has failed. -/
theorem calls_of_ok {m : PlanM α β} {b : β} (s : Script m) (h : m p = .ok b q) :
    ∀ call ∈ s.calls p, call.1.error? call.2 = none := by
  induction s generalizing p q with
  | pure _ | throw _ | get | ofExcept _ => exact fun _ h => absurd h List.not_mem_nil
  | call c =>
      refine List.forall_mem_singleton.mpr ?_
      rw [Call.error?, h]
  | bind first rest ihfirst ihrest =>
      obtain ⟨c, r, hx, hrest⟩ := bind_eq_ok.mp h
      rw [calls, hx]
      exact List.forall_mem_append.mpr ⟨ihfirst hx, ihrest c hrest⟩

/-! ## Outcomes -/

/-- A run comes to a result and a session as wanted, or fails with the error of
one of its calls that may fail. -/
def Ends {m : PlanM α β} (s : Script m) (p : Planner α) (Q : β → Planner α → Prop)
    (C : Call α → Planner α → Prop) : Prop :=
  m.Ends p Q fun e _ => ∃ call ∈ s.calls p, C call.1 call.2 ∧ call.1.error? call.2 = some e

namespace Ends

variable {m : PlanM α β} {s : Script m} {Q : β → Planner α → Prop} {R : γ → Planner α → Prop}
  {C : Call α → Planner α → Prop}

theorem of_ok {b : β} (h : m p = .ok b q) (hQ : Q b q) : s.Ends p Q C := PlanM.Ends.of_ok h hQ

theorem pure {b : β} (h : Q b p) : (Script.pure b).Ends p Q C := h

theorem imp_of_ok {Q' : β → Planner α → Prop} (h : s.Ends p Q C)
    (hQ : ∀ b q, m p = .ok b q → Q b q → Q' b q) : s.Ends p Q' C :=
  PlanM.Ends.imp_of_ok h hQ

/-- A call that succeeds as wanted, or may fail. -/
theorem call {c : Call α} {Q : c.Result → Planner α → Prop} (hQ : ∀ b q, c.run p = .ok b q → Q b q)
    (hC : C c p) : (Script.call c).Ends p Q C := by
  rw [Ends, PlanM.Ends]
  cases hrun : c.run p with
  | ok b q => exact hQ b q hrun
  | error e q =>
      refine ⟨(c, p), List.mem_singleton_self _, hC, ?_⟩
      rw [Call.error?, hrun]

/-- Nothing is known of a call in advance. -/
theorem any (c : Call α) : (Script.call c).Ends p (fun _ _ => True) fun _ _ => True :=
  call (fun _ _ _ => trivial) trivial

/-- What comes to an end without any failure does so as a script. -/
theorem of_total (h : m.Ends p Q fun _ _ => False) : s.Ends p Q C :=
  h.imp (fun _ _ => id) fun _ _ => False.elim

theorem bind {x : PlanM α β} {f : β → PlanM α γ} {first : Script x} {rest : ∀ b, Script (f b)}
    (hx : first.Ends p Q C) (hf : ∀ b q, x p = .ok b q → Q b q → (rest b).Ends q R C) :
    (Script.bind first rest).Ends p R C := by
  -- The calls of either part are calls of the whole.
  refine PlanM.Ends.bind (hx.imp (fun _ _ => id) ?_) fun b q hrun hb =>
    (hf b q hrun hb).imp (fun _ _ => id) ?_
  · rintro e - ⟨call, hmem, hcall⟩
    refine ⟨call, ?_, hcall⟩
    rw [calls]
    exact List.mem_append_left _ hmem
  · rintro e - ⟨call, hmem, hcall⟩
    refine ⟨call, ?_, hcall⟩
    rw [calls, hrun]
    exact List.mem_append_right _ hmem

theorem ite {c : Prop} [inst : Decidable c] {x y : PlanM α β} {sx : Script x} {sy : Script y}
    (hx : c → sx.Ends p Q C) (hy : ¬c → sy.Ends p Q C) :
    (Script.ite sx sy : Script (if c then x else y)).Ends p Q C := by
  cases inst with
  | isTrue h => exact hx h
  | isFalse h => exact hy h

/-- A failure is that of a call. -/
theorem of_error {e : PlanError α} (h : s.Ends p Q C) (hrun : m p = .error e q) :
    ∃ call ∈ s.calls p, C call.1 call.2 ∧ call.1.error? call.2 = some e := by
  rw [Ends, PlanM.Ends, hrun] at h
  exact h

/-- A run succeeds if all of its calls that may fail do. -/
theorem exists_ok (h : s.Ends p Q C)
    (hcalls : ∀ call ∈ s.calls p, C call.1 call.2 → call.1.error? call.2 = none) :
    ∃ b q, m p = .ok b q ∧ Q b q := by
  refine PlanM.Ends.exists_ok (h.imp (fun _ _ => id) ?_)
  rintro e - ⟨call, hmem, hC, he⟩
  exact nomatch (hcalls call hmem hC).symm.trans he

/-- A loop keeps what each of its steps keeps. -/
theorem foldlM {f : β → γ → PlanM α β} {step : ∀ b x, Script (f b x)} {l : List γ}
    {I : β → Planner α → Prop} (hf : ∀ b p, I b p → ∀ x ∈ l, (step b x).Ends p I C) {b : β}
    (hb : I b p) : (Script.foldlM step l b).Ends p I C := by
  induction l generalizing b p with
  | nil => exact pure hb
  | cons x rest ih =>
      refine (hf b p hb x List.mem_cons_self).bind fun c q _ hc => ?_
      exact ih (fun b p hb y hy => hf b p hb y (List.mem_cons_of_mem x hy)) hc

theorem forM {f : γ → PlanM α PUnit} {step : ∀ x, Script (f x)} {l : List γ}
    {I : Planner α → Prop} (hf : ∀ p, I p → ∀ x ∈ l, (step x).Ends p (fun _ q => I q) C)
    (hp : I p) : (Script.forM step l).Ends p (fun _ q => I q) C := by
  induction l generalizing p with
  | nil => exact hp
  | cons x rest ih =>
      refine (hf p hp x List.mem_cons_self).bind fun _ q _ hq => ?_
      exact ih (fun p hp y hy => hf p hp y (List.mem_cons_of_mem x hy)) hq

end Ends

end Script

/-! ## The search as a script

Each program of the search has a script of the same shape. -/

namespace JoinSearch

def relidsScript (id : Nat) : Script (relids id : PlanM α RelSet) :=
  .bind .get fun p => .bind (.ofExcept (p.relation id)) fun r => .pure r.relids

def startScript : Script (start : PlanM α (List Nat)) :=
  .bind .get fun _ =>
    .ite (.bind (.throw _) fun _ => .bind (.forM (fun id => .call (.scans id)) _) fun _ => .pure _)
      (.bind (.forM (fun id => .call (.scans id)) _) fun _ => .pure _)

def pairScript (a b : Nat) (level : List Nat) : Script (joinPair a b level : PlanM α (List Nat)) :=
  .bind (.call (.join a b)) fun (join, forward) =>
    .bind (.call (.paths join a b forward .inner)) fun _ =>
    .bind (.call (.join b a)) fun (_, backward) =>
    .bind (.call (.paths join b a backward .inner)) fun _ => .pure _

/-- Reading the members of a relation is no call, but joining a pair makes
four. -/
def tryScript (wanted : RelSet → RelSet → Bool) (outer : Nat) (level : List Nat) (inner : Nat) :
    Script (tryPair wanted outer level inner : PlanM α (List Nat)) :=
  .bind (relidsScript outer) fun _ => .bind (relidsScript inner) fun _ =>
    .ite (.pure level) (pairScript outer inner level)

def joinAllScript (wanted : RelSet → RelSet → Bool) (previous bases level : List Nat) :
    Script (joinAll wanted previous bases level : PlanM α (List Nat)) :=
  .foldlM (fun level outer => .foldlM (tryScript wanted outer) bases level) previous level

def nextScript (g : JoinGraph) (bases previous : List Nat) :
    Script (nextLevel g bases previous : PlanM α (List Nat)) :=
  .bind (joinAllScript _ previous bases []) fun linked =>
    .ite (joinAllScript _ previous bases []) (.pure linked)

def climbScript (g : JoinGraph) (bases : List Nat) :
    (steps : Nat) → (level : List Nat) → Script (climb g bases steps level : PlanM α (List Nat))
  | 0, level => .pure level
  | steps + 1, level => .bind (nextScript g bases level) fun next =>
    .ite (.bind (.throw _) fun _ => climbScript g bases steps next) (climbScript g bases steps next)

def script : Script (search : PlanM α Nat) :=
  .bind startScript fun bases => .bind .get fun p =>
    .bind (climbScript (graph p) bases (bases.length - 1) bases) fun
      | [join] => .pure join
      | [] | _ :: _ :: _ => .throw _

/-- The calls that the search makes, each with the state it is made in. -/
def calls (p : Planner α) : List (Call α × Planner α) := script.calls p

end JoinSearch

end QueryPlanner
