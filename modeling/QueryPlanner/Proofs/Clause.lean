/-
  QueryPlanner.Proofs.Clause

  Lists of clauses by identity, and the join info of a relation.

  A relation's join info files each waiting clause under the relations that
  are still missing.  `JoinInfo.WellFormed` says that this filing is right:
  one entry for each set of missing relations, every clause once, and only
  clauses that reach across the boundary of the relation.  `JoinInfo.Exact`
  adds that none of the clauses of a query that do so is left out.
-/

import QueryPlanner.Clause
import QueryPlanner.Proofs.RelSet

namespace QueryPlanner

variable {α : Type}

namespace Clause

variable {c : Clause α} {into extra : List (Clause α)}

/-- The clause reads relations of a set and relations outside it. -/
def Crosses (c : Clause α) (s : Finset RtIndex) : Prop :=
  ¬ Disjoint c.required.toFinset s ∧ ¬ c.required.toFinset ⊆ s

instance (c : Clause α) (s : Finset RtIndex) : Decidable (c.Crosses s) :=
  inferInstanceAs (Decidable (_ ∧ _))

/-- A clause reaches across a boundary only if it reads several relations. -/
theorem Crosses.two_le_size {s : Finset RtIndex} (hc : c.required.Ascending)
    (h : c.Crosses s) : 2 ≤ c.required.size := by
  obtain ⟨r, hr, hrs⟩ := Finset.not_disjoint_iff.mp h.1
  obtain ⟨r', hr', hrs'⟩ := Finset.not_subset.mp h.2
  rw [hc.size_eq]
  exact Finset.one_lt_card.mpr ⟨r, hr, r', hr', fun he => hrs' (he ▸ hrs)⟩

theorem crosses_singleton_iff {r : RtIndex} (hc : c.required.Ascending) :
    c.Crosses {r} ↔ r ∈ c.required.toFinset ∧ 2 ≤ c.required.size := by
  constructor
  · intro h
    refine ⟨?_, h.two_le_size hc⟩
    rw [Crosses, Finset.disjoint_singleton_right, not_not] at h
    exact h.1
  · rintro ⟨hr, hsize⟩
    refine ⟨Finset.not_disjoint_iff.mpr ⟨r, hr, Finset.mem_singleton_self r⟩, fun hsub => ?_⟩
    have hcard := Finset.card_le_card hsub
    rw [Finset.card_singleton, ← hc.size_eq] at hcard
    omega

/-! ## Uniting lists -/

theorem isIn_iff {cs : List (Clause α)} : c.isIn cs = true ↔ c.id ∈ cs.map (·.id) := by
  rw [isIn, List.any_eq_true, List.mem_map]
  simp only [beq_iff_eq]

theorem union_cons (into : List (Clause α)) (c : Clause α) (extra : List (Clause α)) :
    union into (c :: extra) = union (if c.isIn into then into else into ++ [c]) extra := rfl

theorem id_mem_union {i : Nat} :
    i ∈ (union into extra).map (·.id) ↔ i ∈ into.map (·.id) ∨ i ∈ extra.map (·.id) := by
  induction extra generalizing into with
  | nil => simp [union]
  | cons c rest ih =>
      rw [union_cons, ih, List.map_cons, List.mem_cons]
      split
      · rename_i h
        have hc := isIn_iff.mp h
        constructor
        · exact Or.imp_right .inr
        · rintro (h | rfl | h)
          · exact .inl h
          · exact .inl hc
          · exact .inr h
      · rw [List.map_append, List.mem_append, List.map_singleton, List.mem_singleton, or_assoc]

theorem mem_of_mem_union (h : c ∈ union into extra) : c ∈ into ∨ c ∈ extra := by
  induction extra generalizing into with
  | nil => exact .inl h
  | cons d rest ih =>
      rw [union_cons] at h
      rcases ih h with h | h
      · split at h
        · exact .inl h
        · rcases List.mem_append.mp h with h | h
          · exact .inl h
          · exact .inr (List.mem_singleton.mp h ▸ List.mem_cons_self)
      · exact .inr (List.mem_cons_of_mem d h)

theorem nodup_union (h : (into.map (·.id)).Nodup) : ((union into extra).map (·.id)).Nodup := by
  induction extra generalizing into with
  | nil => exact h
  | cons c rest ih =>
      rw [union_cons]
      split
      · exact ih h
      · rename_i hc
        refine ih ?_
        rw [List.map_append, List.map_singleton, ← List.concat_eq_append]
        exact List.Nodup.concat (fun hid => hc (isIn_iff.mpr hid)) h

/-- Among clauses that their identities tell apart, the united list has the
clauses of both. -/
theorem mem_union {all : List (Clause α)} (hall : (all.map (·.id)).Nodup)
    (hinto : ∀ c ∈ into, c ∈ all) (hextra : ∀ c ∈ extra, c ∈ all) :
    c ∈ union into extra ↔ c ∈ into ∨ c ∈ extra := by
  refine ⟨mem_of_mem_union, fun h => ?_⟩
  have hc : c ∈ all := h.elim (hinto c) (hextra c)
  have hid : c.id ∈ (union into extra).map (·.id) :=
    id_mem_union.mpr (h.imp (List.mem_map_of_mem) (List.mem_map_of_mem))
  obtain ⟨d, hd, hdc⟩ := List.mem_map.mp hid
  have hda : d ∈ all := (mem_of_mem_union hd).elim (hinto d) (hextra d)
  rwa [List.inj_on_of_nodup_map hall hda hc hdc] at hd

theorem union_singleton (h : c.id ∉ into.map (·.id)) : union into [c] = into ++ [c] := by
  rw [union_cons, if_neg fun hc => h (isIn_iff.mp hc)]
  rfl

theorem union_ne_nil (h : extra ≠ []) : union into extra ≠ [] := by
  obtain ⟨c, hc⟩ := List.exists_mem_of_ne_nil extra h
  have hid : c.id ∈ (union into extra).map (·.id) :=
    id_mem_union.mpr (.inr (List.mem_map_of_mem hc))
  rintro hnil
  rw [hnil] at hid
  exact List.not_mem_nil hid

end Clause

/-! ## Join info -/

namespace JoinInfo

variable {key : RelSet} {f g : List (Clause α) → List (Clause α)} {infos : List (JoinInfo α)}
  {info : JoinInfo α} {c : Clause α}

/-- Some entry has the clause. -/
def Keeps (infos : List (JoinInfo α)) (c : Clause α) : Prop := ∃ info ∈ infos, c ∈ info.clauses

/-- The clauses filed under a key before an update, if any. -/
def Filed (infos : List (JoinInfo α)) (key : RelSet) (cs : List (Clause α)) : Prop :=
  cs = [] ∨ ⟨key, cs⟩ ∈ infos

theorem Filed.tail {cs : List (Clause α)} (h : Filed infos key cs) : Filed (info :: infos) key cs :=
  h.imp_right (List.mem_cons_of_mem info)

theorem Filed.head (info : JoinInfo α) (infos : List (JoinInfo α)) :
    Filed (info :: infos) info.unjoined info.clauses := .inr List.mem_cons_self

theorem update_congr (h : ∀ cs, Filed infos key cs → f cs = g cs) :
    update key f infos = update key g infos := by
  induction infos with
  | nil => rw [update, update, h [] (.inl rfl)]
  | cons info rest ih =>
      rw [update, update, ih fun cs hcs => h cs hcs.tail]
      split
      · rename_i hkey
        rw [h info.clauses (hkey ▸ Filed.head info rest)]
      · rfl

theorem mem_update (h : info ∈ update key f infos) :
    info ∈ infos ∨ ∃ cs, Filed infos key cs ∧ info = ⟨key, f cs⟩ := by
  induction infos with
  | nil => exact .inr ⟨[], .inl rfl, List.mem_singleton.mp h⟩
  | cons first rest ih =>
      rw [update] at h
      split at h
      · rename_i hkey
        rcases List.mem_cons.mp h with rfl | h
        · exact .inr ⟨first.clauses, hkey ▸ Filed.head first rest, rfl⟩
        · exact .inl (List.mem_cons_of_mem first h)
      · rcases List.mem_cons.mp h with rfl | h
        · exact .inl List.mem_cons_self
        · rcases ih h with h | ⟨cs, hcs, rfl⟩
          · exact .inl (List.mem_cons_of_mem first h)
          · exact .inr ⟨cs, hcs.tail, rfl⟩

theorem keys_update :
    (update key f infos).map (·.unjoined) =
      if key ∈ infos.map (·.unjoined) then infos.map (·.unjoined)
      else infos.map (·.unjoined) ++ [key] := by
  induction infos with
  | nil => simp [update]
  | cons info rest ih =>
      rw [update]
      by_cases hkey : info.unjoined = key
      · simp [hkey]
      · rw [if_neg hkey, List.map_cons, ih, List.map_cons]
        by_cases hrest : key ∈ rest.map (·.unjoined)
        · rw [if_pos hrest, if_pos (List.mem_cons_of_mem _ hrest)]
        · have hcons : key ∉ info.unjoined :: rest.map (·.unjoined) := fun h =>
            (List.mem_cons.mp h).elim (fun h => hkey h.symm) hrest
          rw [if_neg hrest, if_neg hcons, List.cons_append]

theorem keeps_cons : Keeps (info :: infos) c ↔ c ∈ info.clauses ∨ Keeps infos c := by
  rw [Keeps, List.exists_mem_cons_iff]
  exact Iff.rfl

/-- An update that adds some clauses to an entry adds them to the list. -/
theorem keeps_update {extra : List (Clause α)}
    (hf : ∀ cs, Filed infos key cs → (c ∈ f cs ↔ c ∈ cs ∨ c ∈ extra)) :
    Keeps (update key f infos) c ↔ Keeps infos c ∨ c ∈ extra := by
  induction infos with
  | nil =>
      rw [update, keeps_cons, hf [] (.inl rfl)]
      simp [Keeps]
  | cons info rest ih =>
      rw [update]
      split
      · rename_i hkey
        rw [keeps_cons, keeps_cons, hf info.clauses (hkey ▸ Filed.head info rest)]
        exact or_right_comm
      · rw [keeps_cons, keeps_cons, ih fun cs hcs => hf cs hcs.tail, or_assoc]

/-- Join info as it should be: an entry for each set of missing relations, and
in it clauses, each once, that reach across the boundary of the relation and
miss just these relations. -/
structure WellFormed (relids : RelSet) (infos : List (JoinInfo α)) : Prop where
  keys_nodup : (infos.map (·.unjoined)).Nodup
  clauses_ne_nil : ∀ info ∈ infos, info.clauses ≠ []
  ids_nodup : ∀ info ∈ infos, (info.clauses.map (·.id)).Nodup
  unjoined_eq : ∀ info ∈ infos, ∀ c ∈ info.clauses, info.unjoined = c.required.difference relids
  crosses : ∀ info ∈ infos, ∀ c ∈ info.clauses, c.Crosses relids.toFinset

theorem WellFormed.nil (relids : RelSet) : WellFormed relids ([] : List (JoinInfo α)) where
  keys_nodup := .nil
  clauses_ne_nil := nofun
  ids_nodup := nofun
  unjoined_eq := nofun
  crosses := nofun

/-- Filing further clauses where they belong keeps join info well formed. -/
theorem WellFormed.update {relids : RelSet} (h : WellFormed relids infos)
    {extra : List (Clause α)} (hne : extra ≠ [])
    (hkey : ∀ c ∈ extra, key = c.required.difference relids)
    (hcross : ∀ c ∈ extra, c.Crosses relids.toFinset) :
    WellFormed relids (update key (Clause.union · extra) infos) := by
  -- What is filed under the key is well formed even where no entry is.
  have hids : ∀ cs, Filed infos key cs → (cs.map (·.id)).Nodup := by
    rintro cs (rfl | hcs)
    · exact .nil
    · exact h.ids_nodup _ hcs
  have hunjoined : ∀ cs, Filed infos key cs → ∀ c ∈ cs, key = c.required.difference relids := by
    rintro cs (rfl | hcs)
    · exact nofun
    · exact h.unjoined_eq _ hcs
  have hcrosses : ∀ cs, Filed infos key cs → ∀ c ∈ cs, c.Crosses relids.toFinset := by
    rintro cs (rfl | hcs)
    · exact nofun
    · exact h.crosses _ hcs
  refine ⟨?_, fun info hi => ?_, fun info hi => ?_, fun info hi c hc => ?_, fun info hi c hc => ?_⟩
  · rw [keys_update]
    split
    · exact h.keys_nodup
    · rename_i hk
      rw [← List.concat_eq_append]
      exact List.Nodup.concat hk h.keys_nodup
  · rcases mem_update hi with hi | ⟨cs, hcs, rfl⟩
    · exact h.clauses_ne_nil info hi
    · exact Clause.union_ne_nil hne
  · rcases mem_update hi with hi | ⟨cs, hcs, rfl⟩
    · exact h.ids_nodup info hi
    · exact Clause.nodup_union (hids cs hcs)
  · rcases mem_update hi with hi | ⟨cs, hcs, rfl⟩
    · exact h.unjoined_eq info hi c hc
    · exact (Clause.mem_of_mem_union hc).elim (hunjoined cs hcs c) (hkey c)
  · rcases mem_update hi with hi | ⟨cs, hcs, rfl⟩
    · exact h.crosses info hi c hc
    · exact (Clause.mem_of_mem_union hc).elim (hcrosses cs hcs c) (hcross c)

/-- A clause that waits nowhere yet is filed under the relations that it
misses. -/
theorem WellFormed.file {relids : RelSet} (h : WellFormed relids infos)
    (hc : c.Crosses relids.toFinset) (hnew : ∀ d, Keeps infos d → d.id ≠ c.id) :
    WellFormed relids (JoinInfo.update (c.required.difference relids) (· ++ [c]) infos) := by
  -- No entry has the clause, so appending it is uniting with it.
  have hfiled : ∀ cs, Filed infos (c.required.difference relids) cs →
      cs ++ [c] = Clause.union cs [c] := by
    intro cs hcs
    refine (Clause.union_singleton fun hid => ?_).symm
    obtain ⟨d, hd, hid⟩ := List.mem_map.mp hid
    rcases hcs with rfl | hcs
    · exact List.not_mem_nil hd
    · exact hnew d ⟨_, hcs, hd⟩ hid
  rw [update_congr hfiled]
  refine h.update (List.cons_ne_nil c []) (fun d hd => ?_) fun d hd => ?_
  · rw [List.mem_singleton.mp hd]
  · rw [List.mem_singleton.mp hd]
    exact hc

/-- Every clause is filed once. -/
theorem WellFormed.nodup_flatMap {relids : RelSet} (h : WellFormed relids infos) :
    (infos.flatMap (·.clauses)).Nodup := by
  rw [List.nodup_flatMap]
  refine ⟨fun info hi => .of_map _ (h.ids_nodup info hi), ?_⟩
  have hkeys := List.pairwise_map.mp h.keys_nodup
  refine hkeys.imp_of_mem fun {info info'} hi hi' hne c hc hc' => hne ?_
  rw [h.unjoined_eq info hi c hc, h.unjoined_eq info' hi' c hc']

/-- Well-formed join info that has every clause of a query reaching across the
boundary of the relation. -/
structure Exact (all : List (Clause α)) (relids : RelSet) (infos : List (JoinInfo α)) : Prop
    extends WellFormed relids infos where
  keeps_iff : ∀ c, Keeps infos c ↔ c ∈ all ∧ c.Crosses relids.toFinset

namespace Exact

variable {all : List (Clause α)} {relids : RelSet}

theorem nil (h : ∀ c ∈ all, ¬ c.Crosses relids.toFinset) : Exact all relids [] where
  toWellFormed := .nil relids
  keeps_iff c := iff_of_false (by simp [Keeps]) fun hc => h c hc.1 hc.2

/-- One more clause of the query matters where it reaches across the
boundary. -/
theorem concat (h : Exact all relids infos) (hc : ¬ c.Crosses relids.toFinset) :
    Exact (all ++ [c]) relids infos where
  toWellFormed := h.toWellFormed
  keeps_iff d := by
    rw [h.keeps_iff, List.mem_append, List.mem_singleton]
    constructor
    · exact And.imp_left .inl
    · rintro ⟨hd | rfl, hcross⟩
      · exact ⟨hd, hcross⟩
      · exact absurd hcross hc

/-- There it is filed under the relations that it misses. -/
theorem update (h : Exact all relids infos) (hc : c.Crosses relids.toFinset)
    (hnew : c.id ∉ all.map (·.id)) :
    Exact (all ++ [c]) relids
      (JoinInfo.update (c.required.difference relids) (· ++ [c]) infos) := by
  have hunfiled : ∀ d, Keeps infos d → d.id ≠ c.id := by
    intro d hd hid
    exact hnew (hid ▸ List.mem_map_of_mem ((h.keeps_iff d).mp hd).1)
  refine ⟨h.toWellFormed.file hc hunfiled, fun d => ?_⟩
  rw [keeps_update fun cs _ => List.mem_append, h.keeps_iff, List.mem_append, List.mem_singleton]
  constructor
  · rintro (⟨hd, hcross⟩ | rfl)
    · exact ⟨.inl hd, hcross⟩
    · exact ⟨.inr rfl, hc⟩
  · rintro ⟨hd | hd, hcross⟩
    · exact .inl ⟨hd, hcross⟩
    · exact .inr hd

end Exact

end JoinInfo

end QueryPlanner
