/-
  QueryPlanner.Proofs.PlanM

  Reasoning about programs on a session.

  A run that succeeds is taken apart with the `eq_ok` lemmas, one for each way
  of composing programs.  What holds of every run, the failing ones included,
  is stated with `Moves`: a program moves sessions along a preorder if each of
  its steps does.  `Ends` says what a run comes to, and how it is allowed to
  fail; with no failure allowed it says that the run succeeds.
-/

import Mathlib.Order.Defs.Unbundled
import QueryPlanner.Planner

namespace QueryPlanner.PlanM

variable {α β γ : Type} {p q : Planner α}

/-! ## Successful runs -/

theorem bind_eq_ok {x : PlanM α β} {f : β → PlanM α γ} {c : γ} :
    (x >>= f) p = .ok c q ↔ ∃ b r, x p = .ok b r ∧ f b r = .ok c q := by
  show EStateM.bind x f p = _ ↔ _
  rw [EStateM.bind]
  cases x p with
  | ok b r =>
      constructor
      · exact fun h => ⟨b, r, rfl, h⟩
      · rintro ⟨_, _, ⟨⟩, h⟩
        exact h
  | error e r =>
      constructor
      · exact nofun
      · rintro ⟨_, _, ⟨⟩, _⟩

theorem pure_eq_ok {b c : β} : (pure b : PlanM α β) p = .ok c q ↔ b = c ∧ p = q := by
  show EStateM.Result.ok b p = _ ↔ _
  rw [EStateM.Result.ok.injEq]

theorem get_eq_ok {r : Planner α} : (get : PlanM α (Planner α)) p = .ok r q ↔ p = r ∧ p = q :=
  pure_eq_ok (b := p)

theorem modify_eq_ok {f : Planner α → Planner α} {u : PUnit} :
    (modify f : PlanM α PUnit) p = .ok u q ↔ f p = q := by
  show EStateM.Result.ok () (f p) = _ ↔ _
  rw [EStateM.Result.ok.injEq]
  exact and_iff_right rfl

theorem ofExcept_eq_ok {x : Except (PlanError α) β} {b : β} :
    ofExcept x p = .ok b q ↔ x = .ok b ∧ p = q := by
  cases x with
  | ok c =>
      rw [Except.ok.injEq]
      exact pure_eq_ok
  | error e =>
      constructor
      · exact nofun
      · rintro ⟨⟨⟩, _⟩

theorem throw_ne_ok {e : PlanError α} {b : β} : (throw e : PlanM α β) p ≠ .ok b q := nofun

/-- A run comes to its end. -/
def succeeds (m : PlanM α β) (p : Planner α) : Bool :=
  match m p with
  | .ok _ _ => true
  | .error _ _ => false

theorem exists_ok_of_succeeds {m : PlanM α β} (h : m.succeeds p = true) :
    ∃ b q, m p = .ok b q := by
  rw [succeeds] at h
  cases hm : m p with
  | ok b q => exact ⟨b, q, rfl⟩
  | error e q =>
      rw [hm] at h
      exact nomatch h

theorem except_bind_eq_ok {ε : Type} {x : Except ε β} {f : β → Except ε γ} {c : γ} :
    (x >>= f) = .ok c ↔ ∃ b, x = .ok b ∧ f b = .ok c := by
  cases x with
  | ok b =>
      constructor
      · exact fun h => ⟨b, rfl, h⟩
      · rintro ⟨_, ⟨⟩, h⟩
        exact h
  | error e =>
      constructor
      · exact nofun
      · rintro ⟨_, ⟨⟩, _⟩

/-- Each result of a traversal is the result of an element. -/
theorem mem_of_mapM_eq_ok {ε : Type} {f : β → Except ε γ} {l : List β} {l' : List γ} {c : γ}
    (h : l.mapM f = .ok l') (hc : c ∈ l') : ∃ b ∈ l, f b = .ok c := by
  induction l generalizing l' with
  | nil =>
      cases h
      exact absurd hc List.not_mem_nil
  | cons b rest ih =>
      rw [List.mapM_cons] at h
      obtain ⟨d, hd, h⟩ := except_bind_eq_ok.mp h
      obtain ⟨ds, hds, h⟩ := except_bind_eq_ok.mp h
      cases h
      rcases List.mem_cons.mp hc with rfl | hc
      · exact ⟨b, List.mem_cons_self, hd⟩
      · obtain ⟨b', hb', hf⟩ := ih hds hc
        exact ⟨b', List.mem_cons_of_mem b hb', hf⟩

/-- Each element of a traversal has its result among the results. -/
theorem exists_of_mapM_eq_ok {ε : Type} {f : β → Except ε γ} {l : List β} {l' : List γ} {b : β}
    (h : l.mapM f = .ok l') (hb : b ∈ l) : ∃ c ∈ l', f b = .ok c := by
  induction l generalizing l' with
  | nil => exact absurd hb List.not_mem_nil
  | cons a rest ih =>
      rw [List.mapM_cons] at h
      obtain ⟨d, hd, h⟩ := except_bind_eq_ok.mp h
      obtain ⟨ds, hds, h⟩ := except_bind_eq_ok.mp h
      cases h
      rcases List.mem_cons.mp hb with rfl | hb
      · exact ⟨d, List.mem_cons_self, hd⟩
      · obtain ⟨c, hc, hf⟩ := ih hds hb
        exact ⟨c, List.mem_cons_of_mem d hc, hf⟩

theorem mapM_congr {ε : Type} {f g : β → Except ε γ} {l : List β} (h : ∀ b ∈ l, f b = g b) :
    l.mapM f = l.mapM g := by
  induction l with
  | nil => rfl
  | cons b rest ih =>
      rw [List.mapM_cons, List.mapM_cons, h b List.mem_cons_self,
        ih fun b hb => h b (List.mem_cons_of_mem _ hb)]

theorem foldlM_congr {ε : Type} {f g : β → γ → Except ε β} {l : List γ}
    (h : ∀ b, ∀ x ∈ l, f b x = g b x) (b : β) : l.foldlM f b = l.foldlM g b := by
  induction l generalizing b with
  | nil => rfl
  | cons x rest ih =>
      rw [List.foldlM_cons, List.foldlM_cons, h b x List.mem_cons_self]
      exact bind_congr fun b' => ih (fun b y hy => h b y (List.mem_cons_of_mem x hy)) b'

/-! ## Runs that cannot fail -/

theorem except_bind_total {ε : Type} {x : Except ε β} {f : β → Except ε γ}
    (hx : ∃ b, x = .ok b) (hf : ∀ b, x = .ok b → ∃ c, f b = .ok c) : ∃ c, (x >>= f) = .ok c := by
  obtain ⟨b, hb⟩ := hx
  obtain ⟨c, hc⟩ := hf b hb
  exact ⟨c, except_bind_eq_ok.mpr ⟨b, hb, hc⟩⟩

theorem except_bind_total_of_ok {ε : Type} {x : Except ε β} {f : β → Except ε γ} {b : β}
    (hx : x = .ok b) (hf : ∃ c, f b = .ok c) : ∃ c, (x >>= f) = .ok c := by
  rw [hx]
  exact hf

theorem mapM_total {ε : Type} {f : β → Except ε γ} {l : List β}
    (h : ∀ b ∈ l, ∃ c, f b = .ok c) : ∃ l', l.mapM f = .ok l' := by
  induction l with
  | nil => exact ⟨[], rfl⟩
  | cons b rest ih =>
      rw [List.mapM_cons]
      refine except_bind_total (h b List.mem_cons_self) fun c _ => ?_
      exact except_bind_total (ih fun b hb => h b (List.mem_cons_of_mem _ hb)) fun l' _ => ⟨_, rfl⟩

theorem foldlM_total {ε : Type} {f : β → γ → Except ε β} {l : List γ}
    (h : ∀ b, ∀ x ∈ l, ∃ b', f b x = .ok b') (b : β) : ∃ b', l.foldlM f b = .ok b' := by
  induction l generalizing b with
  | nil => exact ⟨b, rfl⟩
  | cons x rest ih =>
      rw [List.foldlM_cons]
      refine except_bind_total (h b x List.mem_cons_self) fun b' _ => ?_
      exact ih (fun b y hy => h b y (List.mem_cons_of_mem x hy)) b'

/-! ## Steps -/

theorem bind_of_ok {x : PlanM α β} {f : β → PlanM α γ} {b : β} (h : x p = .ok b q) :
    (x >>= f) p = f b q := by
  show EStateM.bind x f p = _
  rw [EStateM.bind, h]

theorem bind_of_error {x : PlanM α β} {f : β → PlanM α γ} {e : PlanError α}
    (h : x p = .error e q) : (x >>= f) p = .error e q := by
  show EStateM.bind x f p = _
  rw [EStateM.bind, h]

theorem get_bind {f : Planner α → PlanM α β} : (get >>= f) p = f p p := rfl

theorem ofExcept_bind_of_ok {x : Except (PlanError α) β} {f : β → PlanM α γ} {b : β}
    (h : x = .ok b) : (ofExcept x >>= f) p = f b p := by
  rw [h]
  rfl

theorem ofExcept_bind_of_error {x : Except (PlanError α) β} {f : β → PlanM α γ}
    {e : PlanError α} (h : x = .error e) : (ofExcept x >>= f) p = .error e p := by
  rw [h]
  rfl

/-! ## Loops -/

/-- What every step of a loop keeps holds behind the loop. -/
theorem foldlM_keeps {f : β → γ → PlanM α β} {l : List γ} {I : β → Planner α → Prop}
    (hf : ∀ b p, I b p → ∀ x ∈ l, ∀ b' p', f b x p = .ok b' p' → I b' p')
    {b b' : β} (hb : I b p) (h : l.foldlM f b p = .ok b' q) : I b' q := by
  induction l generalizing b p with
  | nil =>
      obtain ⟨rfl, rfl⟩ := pure_eq_ok.mp h
      exact hb
  | cons x rest ih =>
      rw [List.foldlM_cons] at h
      obtain ⟨c, r, hx, hrest⟩ := bind_eq_ok.mp h
      refine ih (fun b p hb y hy => hf b p hb y (List.mem_cons_of_mem x hy)) ?_ hrest
      exact hf b p hb x List.mem_cons_self c r hx

/-- What one step of a loop brings about, and the others keep, holds behind
the loop. -/
theorem foldlM_reaches {f : β → γ → PlanM α β} {l : List γ} {I Q : β → Planner α → Prop} {x : γ}
    (hf : ∀ b p, I b p → ∀ y ∈ l, ∀ b' p', f b y p = .ok b' p' → I b' p' ∧ (Q b p → Q b' p'))
    (hx : x ∈ l) (hreach : ∀ b p, I b p → ∀ b' p', f b x p = .ok b' p' → Q b' p')
    {b b' : β} (hb : I b p) (h : l.foldlM f b p = .ok b' q) : Q b' q := by
  induction l generalizing b p with
  | nil => exact absurd hx List.not_mem_nil
  | cons y rest ih =>
      rw [List.foldlM_cons] at h
      obtain ⟨c, r, hy, hrest⟩ := bind_eq_ok.mp h
      have hstep := hf b p hb y List.mem_cons_self c r hy
      have htail : ∀ b p, I b p → ∀ z ∈ rest, ∀ b' p', f b z p = .ok b' p' →
          I b' p' ∧ (Q b p → Q b' p') :=
        fun b p hb z hz => hf b p hb z (List.mem_cons_of_mem y hz)
      rcases List.mem_cons.mp hx with rfl | hx
      · -- The step has been made; the rest of the loop keeps its effect.
        have hkeep := foldlM_keeps (I := fun b p => I b p ∧ Q b p) (fun b p hb z hz b' p' hz' =>
          (htail b p hb.1 z hz b' p' hz').imp_right (· hb.2)) ⟨hstep.1, hreach b p hb c r hy⟩ hrest
        exact hkeep.2
      · exact ih htail hx hstep.1 hrest

/-- What each step of a loop brings about for its own element, and all others
keep, holds for every element behind the loop. -/
theorem forM_reaches {f : γ → PlanM α PUnit} {l : List γ} {I : Planner α → Prop}
    {Q : γ → Planner α → Prop} {u : PUnit}
    (hf : ∀ x p p', I p → f x p = .ok ⟨⟩ p' → I p' ∧ Q x p' ∧ ∀ y, Q y p → Q y p')
    (hp : I p) (h : l.forM f p = .ok u q) :
    (∀ x ∈ l, Q x q) ∧ ∀ y, Q y p → Q y q := by
  induction l generalizing p with
  | nil =>
      obtain ⟨-, rfl⟩ := pure_eq_ok.mp h
      exact ⟨nofun, fun _ hy => hy⟩
  | cons x rest ih =>
      obtain ⟨_, r, hx, hrest⟩ := bind_eq_ok.mp h
      obtain ⟨hr, hxr, hkeep⟩ := hf x p r hp hx
      obtain ⟨hall, hkeep'⟩ := ih hr hrest
      exact ⟨List.forall_mem_cons.mpr ⟨hkeep' x hxr, hall⟩, fun y hy => hkeep' y (hkeep y hy)⟩

/-! ## All runs -/

/-- The session behind a run, successful or not. -/
def final (m : PlanM α β) (p : Planner α) : Planner α :=
  match m p with
  | .ok _ q => q
  | .error _ q => q

theorem final_of_ok {m : PlanM α β} {b : β} (h : m p = .ok b q) : m.final p = q := by
  rw [final, h]

theorem final_of_error {m : PlanM α β} {e : PlanError α} (h : m p = .error e q) :
    m.final p = q := by
  rw [final, h]

/-- Another result is the same session. -/
theorem final_bind_pure {x : PlanM α β} {f : β → γ} :
    (x >>= fun b => pure (f b)).final p = x.final p := by
  rw [final, final]
  cases h : x p with
  | ok b q =>
      rw [bind_of_ok h]
      rfl
  | error e q => rw [bind_of_error h]

/-- Every run ends in a session related to the one it starts in. -/
def Moves (R : Planner α → Planner α → Prop) (m : PlanM α β) : Prop := ∀ p, R p (m.final p)

namespace Moves

variable {R : Planner α → Planner α → Prop}

theorem of_ok {m : PlanM α β} {b : β} (hm : m.Moves R) (h : m p = .ok b q) : R p q :=
  final_of_ok h ▸ hm p

theorem mono {S : Planner α → Planner α → Prop} {m : PlanM α β} (hm : m.Moves R)
    (h : ∀ p q, R p q → S p q) : m.Moves S :=
  fun p => h p _ (hm p)

theorem modify {f : Planner α → Planner α} (h : ∀ p, R p (f p)) :
    (modify f : PlanM α PUnit).Moves R := h

variable [IsPreorder (Planner α) R]

protected theorem pure (b : β) : (pure b : PlanM α β).Moves R := refl_of R

protected theorem throw (e : PlanError α) : (throw e : PlanM α β).Moves R := refl_of R

protected theorem get : (get : PlanM α (Planner α)).Moves R := refl_of R

theorem ofExcept (x : Except (PlanError α) β) : (ofExcept x).Moves R := by
  cases x with
  | ok b => exact .pure b
  | error e => exact .throw e

/-- From one session a composed program goes along the preorder if its first
part does, and its second part from where the first one ends. -/
theorem rel_bind {x : PlanM α β} {f : β → PlanM α γ} (hx : R p (x.final p))
    (hf : ∀ b q, x p = .ok b q → R q ((f b).final q)) : R p ((x >>= f).final p) := by
  show R p (final (EStateM.bind x f) p)
  rw [final, EStateM.bind]
  rw [final] at hx
  cases h : x p with
  | ok b q =>
      rw [h] at hx
      exact trans_of R hx (hf b q h)
  | error e q =>
      rw [h] at hx
      exact hx

theorem bind {x : PlanM α β} {f : β → PlanM α γ} (hx : x.Moves R) (hf : ∀ b, (f b).Moves R) :
    (x >>= f).Moves R :=
  fun p => rel_bind (hx p) fun b q _ => hf b q

/-- A loop goes along the preorder if it does for each element of its list. -/
theorem forM_mem {f : γ → PlanM α PUnit} {l : List γ} (hf : ∀ x ∈ l, (f x).Moves R) :
    (l.forM f).Moves R := by
  induction l with
  | nil => exact .pure _
  | cons x rest ih =>
      exact (hf x List.mem_cons_self).bind fun _ => ih fun y hy => hf y (List.mem_cons_of_mem x hy)

theorem forM {f : γ → PlanM α PUnit} (hf : ∀ x, (f x).Moves R) (l : List γ) :
    (l.forM f).Moves R :=
  forM_mem fun x _ => hf x

theorem foldlM {f : β → γ → PlanM α β} (hf : ∀ b x, (f b x).Moves R) (l : List γ) (b : β) :
    (l.foldlM f b).Moves R := by
  induction l generalizing b with
  | nil => exact .pure _
  | cons x rest ih =>
      rw [List.foldlM_cons]
      exact (hf b x).bind ih

end Moves

/-! ## Outcomes -/

/-- A run comes to a result and a session as wanted, or fails as allowed. -/
def Ends (m : PlanM α β) (p : Planner α) (Q : β → Planner α → Prop)
    (E : PlanError α → Planner α → Prop) : Prop :=
  match m p with
  | .ok b q => Q b q
  | .error e q => E e q

namespace Ends

variable {Q : β → Planner α → Prop} {R : γ → Planner α → Prop}
  {E : PlanError α → Planner α → Prop}

theorem of_ok {m : PlanM α β} {b : β} (h : m p = .ok b q) (hQ : Q b q) : m.Ends p Q E := by
  rw [Ends, h]
  exact hQ

theorem pure {b : β} (h : Q b p) : (pure b : PlanM α β).Ends p Q E := h

/-- What a successful run is known to have done holds behind it. -/
theorem imp_of_ok {m : PlanM α β} {Q' : β → Planner α → Prop} (h : m.Ends p Q E)
    (hQ : ∀ b q, m p = .ok b q → Q b q → Q' b q) : m.Ends p Q' E := by
  rw [Ends] at h ⊢
  cases hm : m p with
  | ok b q =>
      rw [hm] at h
      exact hQ b q hm h
  | error e q =>
      rw [hm] at h
      exact h

/-- Less may be asked of a result, and more failures allowed. -/
theorem imp {m : PlanM α β} {Q' : β → Planner α → Prop} {E' : PlanError α → Planner α → Prop}
    (h : m.Ends p Q E) (hQ : ∀ b q, Q b q → Q' b q) (hE : ∀ e q, E e q → E' e q) :
    m.Ends p Q' E' := by
  rw [Ends] at h ⊢
  cases hm : m p with
  | ok b q =>
      rw [hm] at h
      exact hQ b q h
  | error e q =>
      rw [hm] at h
      exact hE e q h

/-- What holds however a run ends holds behind it. -/
theorem final {m : PlanM α β} {I : Planner α → Prop}
    (h : m.Ends p (fun _ q => I q) fun _ q => I q) : I (m.final p) := by
  rw [Ends] at h
  rw [PlanM.final]
  cases hm : m p with
  | ok b q =>
      rw [hm] at h
      exact h
  | error e q =>
      rw [hm] at h
      exact h

theorem of_moves {m : PlanM α β} {R : Planner α → Planner α → Prop} (h : m.Moves R)
    (p : Planner α) : m.Ends p (fun _ q => R p q) fun _ q => R p q := by
  have hfinal := h p
  rw [PlanM.final] at hfinal
  rw [Ends]
  cases hm : m p with
  | ok b q =>
      rw [hm] at hfinal
      exact hfinal
  | error e q =>
      rw [hm] at hfinal
      exact hfinal

theorem bind {x : PlanM α β} {f : β → PlanM α γ} (hx : x.Ends p Q E)
    (hf : ∀ b q, x p = .ok b q → Q b q → (f b).Ends q R E) : (x >>= f).Ends p R E := by
  show Ends (EStateM.bind x f) p R E
  rw [Ends, EStateM.bind]
  rw [Ends] at hx
  cases h : x p with
  | ok b q =>
      rw [h] at hx
      exact hf b q h hx
  | error e q =>
      rw [h] at hx
      exact hx

/-- A loop keeps what each of its steps keeps. -/
theorem forM {f : γ → PlanM α PUnit} {l : List γ} {I : Planner α → Prop}
    (hf : ∀ p, I p → ∀ x ∈ l, (f x).Ends p (fun _ q => I q) E) (hp : I p) :
    (l.forM f).Ends p (fun _ q => I q) E := by
  induction l generalizing p with
  | nil => exact hp
  | cons x rest ih =>
      refine (hf p hp x List.mem_cons_self).bind fun _ q _ hq => ?_
      exact ih (fun p hp y hy => hf p hp y (List.mem_cons_of_mem x hy)) hq

/-- What a run that succeeds has come to is as wanted. -/
theorem result {m : PlanM α β} {b : β} (h : m.Ends p Q E) (hrun : m p = .ok b q) : Q b q := by
  rw [Ends, hrun] at h
  exact h

/-- A run without an allowed failure succeeds. -/
theorem exists_ok {m : PlanM α β} (h : m.Ends p Q fun _ _ => False) :
    ∃ b q, m p = .ok b q ∧ Q b q := by
  rw [Ends] at h
  cases hm : m p with
  | ok b q =>
      rw [hm] at h
      exact ⟨b, q, rfl, h⟩
  | error e q =>
      rw [hm] at h
      exact h.elim

end Ends

end QueryPlanner.PlanM
