/-
  QueryPlanner.Proofs.Planner.JoinInfo

  What happens to waiting clauses at a join.

  A join applies the clauses of its inputs that nothing more is missing for
  and carries on the others.  If the join info of both inputs is exact, so is
  that of the join, and the clauses applied are those of the query that reach
  across the two inputs and no further.  Neither statement mentions how the
  inputs came about: exact join info depends on the relations of an input
  alone.
-/

import QueryPlanner.Planner.Build
import QueryPlanner.Proofs.Clause

namespace QueryPlanner

variable {α : Type}

/-! ## Clauses across two sets -/

namespace Clause

variable {c : Clause α} {s t : Finset RtIndex}

/-- Across the boundary of a union, and across that of one of its parts. -/
theorem crosses_union_iff :
    c.Crosses (s ∪ t) ↔
      (c.Crosses s ∨ c.Crosses t) ∧ ¬ c.required.toFinset ⊆ s ∪ t := by
  constructor
  · rintro ⟨hmeet, hout⟩
    rw [Finset.disjoint_union_right, not_and_or] at hmeet
    have hs : ¬ c.required.toFinset ⊆ s := fun h => hout (h.trans Finset.subset_union_left)
    have ht : ¬ c.required.toFinset ⊆ t := fun h => hout (h.trans Finset.subset_union_right)
    exact ⟨hmeet.imp (⟨·, hs⟩) (⟨·, ht⟩), hout⟩
  · rintro ⟨hmeet, hout⟩
    refine ⟨?_, hout⟩
    rw [Finset.disjoint_union_right, not_and_or]
    exact hmeet.imp And.left And.left

/-- Inside two sets without common members, a clause that reaches out of one
of them is in neither. -/
theorem crosses_within_union_iff (hd : Disjoint s t) (h : c.required.toFinset ⊆ s ∪ t) :
    c.Crosses s ∨ c.Crosses t ↔ ¬ c.required.toFinset ⊆ s ∧ ¬ c.required.toFinset ⊆ t := by
  constructor
  · rintro (⟨hmeet, hout⟩ | ⟨hmeet, hout⟩)
    · exact ⟨hout, fun ht => hmeet (hd.symm.mono_left ht)⟩
    · exact ⟨fun hs => hmeet (hd.mono_left hs), hout⟩
  · rintro ⟨hs, ht⟩
    refine .inl ⟨fun hdis => ht fun r hr => ?_, hs⟩
    exact (Finset.mem_union.mp (h hr)).resolve_left (Finset.disjoint_left.mp hdis hr)

end Clause

namespace Relation

open JoinInfo

variable {relids s t : RelSet} {target : List (JoinInfo α)} {all : List (Clause α)}
  {input outer inner : Relation α} {info : JoinInfo α} {c : Clause α}

/-! ## Carrying on -/

theorem carryOn_eq_foldl (relids : RelSet) (target : List (JoinInfo α)) (input : Relation α) :
    carryOn relids target input = input.joinInfo.foldl
      (fun infos info =>
        if (info.unjoined.difference relids).isEmpty then infos
        else update (info.unjoined.difference relids) (Clause.union · info.clauses) infos) target :=
  rfl

/-- What is missing for a clause at an input, less the relations of the join,
is what is missing for it at the join. -/
theorem unjoined_difference (h : WellFormed s input.joinInfo)
    (hs : s.toFinset ⊆ relids.toFinset) (hi : info ∈ input.joinInfo) (hc : c ∈ info.clauses) :
    info.unjoined.difference relids = c.required.difference relids := by
  rw [h.unjoined_eq info hi c hc, RelSet.difference_difference hs]

theorem wellFormed_carryOn (hin : WellFormed s input.joinInfo)
    (hs : s.toFinset ⊆ relids.toFinset) (h : WellFormed relids target) :
    WellFormed relids (carryOn relids target input) := by
  rw [carryOn_eq_foldl]
  -- Entry by entry; each adds its clauses to one that misses the same relations.
  refine List.foldlRecOn input.joinInfo _ h fun infos hinfos info hi => ?_
  have hmiss {c : Clause α} (hc : c ∈ info.clauses) := unjoined_difference hin hs hi hc
  split
  · exact hinfos
  · rename_i hne
    refine hinfos.update (hin.clauses_ne_nil info hi) (fun c hc => hmiss hc) fun c hc => ?_
    rw [hmiss hc, RelSet.isEmpty_difference_iff] at hne
    exact ⟨fun hd => (hin.crosses info hi c hc).1 (hd.mono_right hs), hne⟩

/-- What a join carries on comes from its inputs. -/
theorem keeps_of_keeps_carryOn
    (h : Keeps (carryOn relids target input) c) :
    Keeps target c ∨ Keeps input.joinInfo c := by
  rw [carryOn_eq_foldl] at h
  refine List.foldlRecOn (motive := fun infos => Keeps infos c →
    Keeps target c ∨ Keeps input.joinInfo c) _ _ .inl ?_ h
  intro infos ih info hinfo hkeeps
  split at hkeeps
  · exact ih hkeeps
  · obtain ⟨entry, hentry, hc⟩ := hkeeps
    rcases mem_update hentry with hentry | ⟨cs, hcs, rfl⟩
    · exact ih ⟨entry, hentry, hc⟩
    · rcases Clause.mem_of_mem_union hc with hc | hc
      · rcases hcs with rfl | hcs
        · exact absurd hc List.not_mem_nil
        · exact ih ⟨_, hcs, hc⟩
      · exact .inr ⟨info, hinfo, hc⟩

/-- The walk over some entries of an input, from what the earlier ones have
made of the target. -/
theorem keeps_foldl_carryOn {infos : List (JoinInfo α)} (hall : (all.map (·.id)).Nodup)
    (hmiss : ∀ info ∈ infos, ∀ c ∈ info.clauses,
      info.unjoined.difference relids = c.required.difference relids)
    (hinfos : ∀ info ∈ infos, ∀ c ∈ info.clauses, c ∈ all)
    (htarget : ∀ c, Keeps target c → c ∈ all) :
    Keeps (infos.foldl (fun infos info =>
      if (info.unjoined.difference relids).isEmpty then infos
      else update (info.unjoined.difference relids) (Clause.union · info.clauses) infos) target) c ↔
      Keeps target c ∨ Keeps infos c ∧ ¬ c.required.toFinset ⊆ relids.toFinset := by
  -- By induction on the entries; the target of the step is that of the rest.
  induction infos generalizing target with
  | nil => simp [Keeps]
  | cons info rest ih =>
      obtain ⟨hi, hrest⟩ := List.forall_mem_cons.mp hmiss
      obtain ⟨hclauses, hinfos⟩ := List.forall_mem_cons.mp hinfos
      rw [List.foldl_cons, keeps_cons]
      by_cases he : (info.unjoined.difference relids).isEmpty = true
      · have hin : c ∈ info.clauses → c.required.toFinset ⊆ relids.toFinset := fun hc =>
          RelSet.isEmpty_difference_iff.mp (hi c hc ▸ he)
        rw [if_pos he, ih hrest hinfos htarget]
        tauto
      · have hout : c ∈ info.clauses → ¬ c.required.toFinset ⊆ relids.toFinset := fun hc h =>
          he (hi c hc ▸ RelSet.isEmpty_difference_iff.mpr h)
        have hstep {c : Clause α} : Keeps (update (info.unjoined.difference relids)
            (Clause.union · info.clauses) target) c ↔ Keeps target c ∨ c ∈ info.clauses :=
          keeps_update fun cs hcs => Clause.mem_union hall
            (fun d hd => hcs.elim (fun h => absurd (h ▸ hd) List.not_mem_nil)
              fun h => htarget d ⟨_, h, hd⟩) hclauses
        rw [if_neg he, ih hrest hinfos fun d hd => (hstep.mp hd).elim (htarget d) (hclauses d),
          hstep]
        tauto

/-- An input hands on the clauses that are not inside the join. -/
theorem keeps_carryOn (hall : (all.map (·.id)).Nodup) (hin : WellFormed s input.joinInfo)
    (hs : s.toFinset ⊆ relids.toFinset) (hinput : ∀ c, Keeps input.joinInfo c → c ∈ all)
    (htarget : ∀ c, Keeps target c → c ∈ all) :
    Keeps (carryOn relids target input) c ↔
      Keeps target c ∨ Keeps input.joinInfo c ∧ ¬ c.required.toFinset ⊆ relids.toFinset := by
  rw [carryOn_eq_foldl]
  exact keeps_foldl_carryOn hall (fun _ hi _ hc => unjoined_difference hin hs hi hc)
    (fun info hi c hc => hinput c ⟨info, hi, hc⟩) htarget

/-- The join of two relations with exact join info has exact join info, and
which relations were joined in which order to make the inputs does not
show. -/
theorem exact_carryOn (hall : (all.map (·.id)).Nodup) (ho : Exact all s outer.joinInfo)
    (hi : Exact all t inner.joinInfo) :
    Exact all (s.union t) (carryOn (s.union t) (carryOn (s.union t) [] outer) inner) := by
  have hs : s.toFinset ⊆ (s.union t).toFinset := RelSet.subset_toFinset_union_left
  have ht : t.toFinset ⊆ (s.union t).toFinset := RelSet.subset_toFinset_union_right
  have hnil : ∀ c : Clause α, Keeps [] c → c ∈ all := by simp [Keeps]
  have houter (c : Clause α) : Keeps (carryOn (s.union t) [] outer) c ↔
      Keeps [] c ∨ Keeps outer.joinInfo c ∧ ¬ c.required.toFinset ⊆ (s.union t).toFinset :=
    keeps_carryOn hall ho.toWellFormed hs (fun c hc => ((ho.keeps_iff c).mp hc).1) hnil
  refine ⟨wellFormed_carryOn hi.toWellFormed ht (wellFormed_carryOn ho.toWellFormed hs (.nil _)),
    fun c => ?_⟩
  rw [keeps_carryOn hall hi.toWellFormed ht (fun c hc => ((hi.keeps_iff c).mp hc).1)
    fun c hc => ?_, houter c, ho.keeps_iff, hi.keeps_iff, RelSet.toFinset_union,
    Clause.crosses_union_iff]
  · have hkeeps : ¬ Keeps [] c := by simp [Keeps]
    tauto
  · rcases (houter c).mp hc with h | h
    · exact hnil c h
    · exact ((ho.keeps_iff c).mp h.1).1

/-! ## Clauses applied at a join -/

/-- Collects the clauses that miss nothing outside the join. -/
theorem restrictionsOfJoin_eq_foldl (relids : RelSet) (outer inner : Relation α) :
    restrictionsOfJoin relids outer inner = (outer.joinInfo ++ inner.joinInfo).foldl
      (fun cs info => if info.unjoined.isSubset relids then Clause.union cs info.clauses else cs)
      [] :=
  rfl

theorem nodup_restrictionsOfJoin (relids : RelSet) (outer inner : Relation α) :
    ((restrictionsOfJoin relids outer inner).map (·.id)).Nodup := by
  rw [restrictionsOfJoin_eq_foldl]
  refine List.foldlRecOn (motive := fun cs : List (Clause α) => (cs.map (·.id)).Nodup) _ _ ?_
    fun cs hcs info _ => ?_
  · exact List.nodup_nil
  · split
    · exact Clause.nodup_union hcs
    · exact hcs

/-- What a join applies comes from its inputs. -/
theorem keeps_of_mem_restrictionsOfJoin (h : c ∈ restrictionsOfJoin relids outer inner) :
    Keeps outer.joinInfo c ∨ Keeps inner.joinInfo c := by
  rw [restrictionsOfJoin_eq_foldl] at h
  have hmem : ∃ info ∈ outer.joinInfo ++ inner.joinInfo, c ∈ info.clauses := by
    refine List.foldlRecOn (motive := fun cs => c ∈ cs →
      ∃ info ∈ outer.joinInfo ++ inner.joinInfo, c ∈ info.clauses) _ _ (absurd · List.not_mem_nil) ?_ h
    intro cs ih info hinfo hc
    split at hc
    · rcases Clause.mem_of_mem_union hc with hc | hc
      · exact ih hc
      · exact ⟨info, hinfo, hc⟩
    · exact ih hc
  obtain ⟨info, hinfo, hc⟩ := hmem
  rcases List.mem_append.mp hinfo with hinfo | hinfo
  · exact .inl ⟨info, hinfo, hc⟩
  · exact .inr ⟨info, hinfo, hc⟩

/-- The clauses of the entries that some condition picks. -/
theorem mem_foldl_union {infos : List (JoinInfo α)} {picked : JoinInfo α → Bool}
    {cs : List (Clause α)} (hall : (all.map (·.id)).Nodup)
    (hinfos : ∀ info ∈ infos, ∀ c ∈ info.clauses, c ∈ all) (hcs : ∀ c ∈ cs, c ∈ all) :
    c ∈ infos.foldl (fun cs info =>
      if picked info then Clause.union cs info.clauses else cs) cs ↔
      c ∈ cs ∨ ∃ info ∈ infos, picked info = true ∧ c ∈ info.clauses := by
  induction infos generalizing cs with
  | nil => simp
  | cons info rest ih =>
      obtain ⟨hinfo, hrest⟩ := List.forall_mem_cons.mp hinfos
      rw [List.foldl_cons, List.exists_mem_cons_iff]
      split
      · rename_i hpicked
        have hunion {c : Clause α} :
            c ∈ Clause.union cs info.clauses ↔ c ∈ cs ∨ c ∈ info.clauses :=
          Clause.mem_union hall hcs hinfo
        rw [ih hrest fun c hc => (hunion.mp hc).elim (hcs c) (hinfo c), hunion]
        tauto
      · rw [ih hrest hcs]
        tauto

/-- Of the clauses filed in the entries, those whose entry misses nothing
outside the join are applied. -/
theorem mem_restrictionsOfJoin_iff (hall : (all.map (·.id)).Nodup)
    (ho : ∀ c, Keeps outer.joinInfo c → c ∈ all) (hi : ∀ c, Keeps inner.joinInfo c → c ∈ all) :
    c ∈ restrictionsOfJoin relids outer inner ↔
      ∃ info ∈ outer.joinInfo ++ inner.joinInfo,
        info.unjoined.isSubset relids = true ∧ c ∈ info.clauses := by
  have hclauses : ∀ info ∈ outer.joinInfo ++ inner.joinInfo, ∀ c ∈ info.clauses, c ∈ all :=
    List.forall_mem_append.mpr ⟨fun info h c hc => ho c ⟨info, h, hc⟩,
      fun info h c hc => hi c ⟨info, h, hc⟩⟩
  rw [restrictionsOfJoin_eq_foldl,
    mem_foldl_union hall hclauses fun _ hc => absurd hc List.not_mem_nil]
  exact or_iff_right List.not_mem_nil

/-- The same clauses are applied whichever input comes first. -/
theorem restrictionsOfJoin_perm (hall : (all.map (·.id)).Nodup)
    (ho : ∀ c, Keeps outer.joinInfo c → c ∈ all) (hi : ∀ c, Keeps inner.joinInfo c → c ∈ all) :
    (restrictionsOfJoin relids inner outer).Perm (restrictionsOfJoin relids outer inner) := by
  refine (List.perm_ext_iff_of_nodup (.of_map _ (nodup_restrictionsOfJoin relids inner outer))
    (.of_map _ (nodup_restrictionsOfJoin relids outer inner))).mpr fun c => ?_
  rw [mem_restrictionsOfJoin_iff hall hi ho, mem_restrictionsOfJoin_iff hall ho hi]
  simp only [List.mem_append, or_comm]

/-- The clauses applied at the join of two relations with exact join info are
those of the query that read nothing else than the join and are inside
neither input. -/
theorem mem_restrictionsOfJoin (hall : (all.map (·.id)).Nodup) (ho : Exact all s outer.joinInfo)
    (hi : Exact all t inner.joinInfo) (hd : Disjoint s.toFinset t.toFinset) :
    c ∈ restrictionsOfJoin (s.union t) outer inner ↔
      c ∈ all ∧ c.required.toFinset ⊆ s.toFinset ∪ t.toFinset ∧
        ¬ c.required.toFinset ⊆ s.toFinset ∧ ¬ c.required.toFinset ⊆ t.toFinset := by
  rw [mem_restrictionsOfJoin_iff hall (fun c hc => ((ho.keeps_iff c).mp hc).1)
    fun c hc => ((hi.keeps_iff c).mp hc).1]
  -- What an entry misses is inside the join if and only if all that its clauses read is.
  have hsub : ∀ info ∈ outer.joinInfo ++ inner.joinInfo, c ∈ info.clauses →
      (info.unjoined.isSubset (s.union t) = true ↔
        c.required.toFinset ⊆ s.toFinset ∪ t.toFinset) := by
    intro info hinfo hc
    rw [← RelSet.toFinset_union]
    rcases List.mem_append.mp hinfo with h | h
    · rw [ho.unjoined_eq info h c hc,
        RelSet.isSubset_difference_iff RelSet.subset_toFinset_union_left]
    · rw [hi.unjoined_eq info h c hc,
        RelSet.isSubset_difference_iff RelSet.subset_toFinset_union_right]
  have hkeeps : (∃ info ∈ outer.joinInfo ++ inner.joinInfo, c ∈ info.clauses) ↔
      Keeps outer.joinInfo c ∨ Keeps inner.joinInfo c := by
    simp only [List.mem_append, or_and_right, exists_or]
    exact Iff.rfl
  constructor
  · rintro ⟨info, hinfo, hin, hc⟩
    have hwithin := (hsub info hinfo hc).mp hin
    rcases hkeeps.mp ⟨info, hinfo, hc⟩ with h | h
    · obtain ⟨hq, hcross⟩ := (ho.keeps_iff c).mp h
      exact ⟨hq, hwithin, (Clause.crosses_within_union_iff hd hwithin).mp (.inl hcross)⟩
    · obtain ⟨hq, hcross⟩ := (hi.keeps_iff c).mp h
      exact ⟨hq, hwithin, (Clause.crosses_within_union_iff hd hwithin).mp (.inr hcross)⟩
  · rintro ⟨hq, hwithin, hout⟩
    have hcross := (Clause.crosses_within_union_iff hd hwithin).mpr hout
    obtain ⟨info, hinfo, hc⟩ := hkeeps.mpr
      (hcross.imp (fun h => (ho.keeps_iff c).mpr ⟨hq, h⟩) fun h => (hi.keeps_iff c).mpr ⟨hq, h⟩)
    exact ⟨info, hinfo, (hsub info hinfo hc).mpr hwithin, hc⟩

end Relation

end QueryPlanner
