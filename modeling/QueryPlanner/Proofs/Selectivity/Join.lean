/-
  QueryPlanner.Proofs.Selectivity.Join

  An equality of two columns keeps no more pairs of rows than have a value on
  both sides.

  The rows of a column that are not null have three parts: those with a paired
  common value, those with another common value, and those with a value that is
  not common.  The estimate is a sum over pairs of such parts, which leaves out
  some pairs and divides others by a number of values.  Pairs of paired values
  are counted once each, so they do not exceed the product of their parts, and
  every divisor is a difference of whole numbers that is positive, hence at
  least 1.  So the sum is at most the product of what is present on the sides.
-/

import Mathlib.Algebra.Order.Field.Basic
import QueryPlanner.Proofs.Selectivity.Pairing

namespace QueryPlanner

open PlanM

theorem Variable.nullFraction_of_statistics {α : Type} [Number α] {v : Variable α}
    {stats : ColumnStatistics α} (hstats : v.statistics = some stats) :
    v.nullFraction = stats.nullFraction := by
  rw [Variable.nullFraction, hstats]

/-! ## Estimates of two variables -/

namespace Selectivity

section Estimate

variable {α : Type} [Number α] {p : Planner α} {a b : Expr α} {l r : Variable α} {opno : Oid}
  {op : Operator α} {type : JoinType}

/-- The common values of a variable as a side of a join. -/
def joinSide (p : Planner α) (v : Variable α) (mcv : SlotView α) : JoinSide α :=
  ⟨mcv.values, mcv.numbers, v.nullFraction, v.distinctCount p⟩

theorem rightSide_of_keeps (htype : type.dedupsInner = false) (v : Variable α)
    (mcv : SlotView α) : rightSide type v mcv (v.distinctCount p) = joinSide p v mcv := by
  rw [rightSide, htype]
  rfl

/-- The estimate of an equality of two variables, before it is moved into
`[0, 1]`, where the right one keeps its duplicates. -/
def joinFraction (p : Planner α) (op : Procedure α) (l r : Variable α) : α :=
  match l.slot? .mcv none, r.slot? .mcv none with
  | some ml, some mr => fromCommonValues op (joinSide p l ml) (joinSide p r mr)
  | _, _ => (1 - l.nullFraction) * (1 - r.nullFraction) /
      Number.max (l.distinctCount p) (r.distinctCount p)

theorem joinEquality_eq (htype : type.dedupsInner = false)
    (hop : p.operators.get? opno = some op) (hl : Variable.examine p a none = .ok l)
    (hr : Variable.examine p b none = .ok r) :
    joinEquality p opno [a, b] type =
      .ok (clampProbability (joinFraction p op.procedure l r)) := by
  have hoperands : Variable.joinOperands p [a, b] = .ok (l, r) :=
    except_bind_eq_ok.mpr ⟨l, hl, except_bind_eq_ok.mpr ⟨r, hr, rfl⟩⟩
  have hlookup := OperatorCatalog.lookup_of_get? hop
  refine except_bind_eq_ok.mpr ⟨(l, r), hoperands, ?_⟩
  dsimp only
  rw [joinFraction]
  cases hml : l.slot? .mcv none with
  | none => rfl
  | some ml =>
      cases hmr : r.slot? .mcv none with
      | none => rfl
      | some mr =>
          refine except_bind_eq_ok.mpr ⟨op, hlookup, ?_⟩
          show Except.ok (clampProbability (fromCommonValues op.procedure (joinSide p l ml)
            (rightSide type r mr (r.distinctCount p)))) = _
          rw [rightSide_of_keeps htype]

/-- The pairs of rows with paired values. -/
def pairSum (l r : JoinSide α) (pairs : List (Nat × Nat)) : α :=
  pairs.foldl (fun acc (i, j) => acc + l.frequency i * r.frequency j) 0

/-- The estimate from the common values, given how they are paired. -/
def fromPairs (l r : JoinSide α) (pairs : List (Nat × Nat)) : α :=
  let pairShare := clampProbability (pairSum l r pairs)
  let ls := l.shares (pairs.map (·.1))
  let rs := r.shares (pairs.map (·.2))
  let count : α := Number.ofNat pairs.length
  Number.min (estimateFrom pairShare count ls rs) (estimateFrom pairShare count rs ls)

theorem fromCommonValues_eq (op : Procedure α) (l r : JoinSide α) :
    fromCommonValues op l r = fromPairs l r (pairUp op r.values [] 0 l.values) := rfl

end Estimate

/-! ## Sums -/

/-- A sum of products of amounts is at most the product of their sums. -/
theorem sum_mul_le {β : Type} {f g : β → Rat} {xs : List β} (hf : ∀ x ∈ xs, 0 ≤ f x)
    (hg : ∀ x ∈ xs, 0 ≤ g x) :
    (xs.map fun x => f x * g x).sum ≤ (xs.map f).sum * (xs.map g).sum := by
  induction xs with
  | nil => simp
  | cons x rest ih =>
      obtain ⟨hfx, hfrest⟩ := List.forall_mem_cons.mp hf
      obtain ⟨hgx, hgrest⟩ := List.forall_mem_cons.mp hg
      have hfsum : 0 ≤ (rest.map f).sum := List.sum_nonneg (List.forall_mem_map.mpr hfrest)
      have hgsum : 0 ≤ (rest.map g).sum := List.sum_nonneg (List.forall_mem_map.mpr hgrest)
      have hcross := add_nonneg (mul_nonneg hfx hgsum) (mul_nonneg hfsum hgx)
      simp only [List.map_cons, List.sum_cons]
      calc f x * g x + (rest.map fun x => f x * g x).sum
          ≤ f x * g x + (rest.map f).sum * (rest.map g).sum :=
            add_le_add_right (ih hfrest hgrest) _
        _ ≤ (f x + (rest.map f).sum) * (g x + (rest.map g).sum) := by linarith

/-- What null rows and frequencies leave of the whole. -/
theorem present_mem {nulls : Rat} {numbers : List Rat} (hnulls : 0 ≤ nulls)
    (hnumbers : ∀ f ∈ numbers, 0 ≤ f) (htotal : nulls + numbers.sum ≤ 1) :
    0 ≤ 1 - nulls ∧ 1 - nulls ≤ 1 := by
  have hsum := List.sum_nonneg hnumbers
  exact ⟨by linarith, by linarith⟩

/-- A list read place by place is its front. -/
theorem sum_places_eq (numbers : List Rat) (n : Nat) :
    ((List.range n).map fun i => numbers[i]?.getD 0).sum = (numbers.take n).sum := by
  induction numbers generalizing n with
  | nil => simp
  | cons x rest ih =>
      cases n with
      | zero => rfl
      | succ n =>
          rw [List.range_succ_eq_map, List.map_cons, List.map_map, List.sum_cons,
            List.take_succ_cons, List.sum_cons, ← ih n]
          rfl

/-- Two sums over the places where something holds and where it does not. -/
theorem foldl_split (holds : Nat → Bool) (f : Nat → Rat) (places : List Nat) (kept left : Rat) :
    places.foldl (fun (kept, left) i =>
      if holds i then (kept + f i, left) else (kept, left + f i)) (kept, left) =
    (kept + ((places.filter holds).map f).sum,
      left + ((places.filter fun i => !holds i).map f).sum) := by
  induction places generalizing kept left with
  | nil => simp
  | cons i rest ih =>
      rw [List.foldl_cons]
      cases hi : holds i with
      | true => simp [ih, hi, add_assoc]
      | false => simp [ih, hi, add_assoc]

/-! ## Sides of a join -/

namespace JoinSide

/-- The frequencies of the values at some places. -/
def share (s : JoinSide Rat) (places : List Nat) : Rat :=
  (places.map fun i => s.numbers[i]?.getD 0).sum

/-- The frequencies of the paired common values. -/
def pairedShare (s : JoinSide Rat) (paired : List Nat) : Rat :=
  s.share ((List.range s.values.length).filter paired.contains)

/-- The frequencies of the other common values. -/
def looseShare (s : JoinSide Rat) (paired : List Nat) : Rat :=
  s.share ((List.range s.values.length).filter fun i => !paired.contains i)

/-- The null fraction and the frequencies are parts of one whole, and distinct
values are counted. -/
structure Proper (s : JoinSide Rat) : Prop where
  nulls : 0 ≤ s.nullFraction
  frequencies : ∀ f ∈ s.numbers, 0 ≤ f
  total : s.nullFraction + s.numbers.sum ≤ 1
  distinct : ∃ n : Nat, s.distinct = n

variable {s : JoinSide Rat} {paired places : List Nat}

theorem Proper.frequency_nonneg (h : s.Proper) (i : Nat) : 0 ≤ s.numbers[i]?.getD 0 := by
  cases hi : s.numbers[i]? with
  | none => exact le_refl 0
  | some f => exact h.frequencies f (List.mem_of_getElem? hi)

theorem Proper.share_nonneg (h : s.Proper) (places : List Nat) : 0 ≤ s.share places := by
  refine List.sum_nonneg ?_
  intro f hf
  obtain ⟨i, -, rfl⟩ := List.mem_map.mp hf
  exact h.frequency_nonneg i

/-- Paired or not, common values are on record, so with the null rows they are no
more than the whole. -/
theorem Proper.whole (h : s.Proper) (paired : List Nat) :
    s.nullFraction + s.pairedShare paired + s.looseShare paired ≤ 1 := by
  have hsplit : s.pairedShare paired + s.looseShare paired =
      s.share (List.range s.values.length) := by
    rw [pairedShare, looseShare, share, share, share, ← List.sum_append, ← List.map_append]
    exact ((List.filter_append_perm paired.contains _).map _).sum_eq
  have hfront := (List.take_sublist s.values.length s.numbers).sum_le_sum h.frequencies
  have htotal := h.total
  rw [add_assoc, hsplit, share, sum_places_eq]
  linarith

/-- Places that are in the list, each once, have their own frequencies. -/
theorem pairedShare_eq (hnodup : paired.Nodup) (hlt : ∀ i ∈ paired, i < s.values.length) :
    s.pairedShare paired = s.share paired := by
  have hperm : ((List.range s.values.length).filter paired.contains).Perm paired := by
    refine (List.perm_ext_iff_of_nodup (List.nodup_range.filter _) hnodup).mpr ?_
    intro i
    rw [List.mem_filter, List.mem_range, List.contains_iff_mem]
    exact ⟨fun h => h.2, fun h => ⟨hlt i h, h⟩⟩
  exact (hperm.map _).sum_eq

theorem split_rational (log2 : Rat → Rat) (h : s.Proper) (paired : List Nat) :
    letI := Number.rational log2
    s.split paired = (s.pairedShare paired, s.looseShare paired) := by
  let _ := Number.rational log2
  have hpaired : 0 ≤ s.pairedShare paired := h.share_nonneg _
  have hloose : 0 ≤ s.looseShare paired := h.share_nonneg _
  have hwhole := h.whole paired
  have hnulls := h.nulls
  have hsums := foldl_split paired.contains (fun i => s.numbers[i]?.getD 0)
    (List.range s.values.length) 0 0
  rw [zero_add, zero_add] at hsums
  have hpaired' := clampProbability_of_mem log2 hpaired (by linarith)
  have hloose' := clampProbability_of_mem log2 hloose (by linarith)
  have hclamped := congrArg
    (fun x : Rat × Rat => (clampProbability x.1, clampProbability x.2)) hsums
  rw [split]
  exact hclamped.trans (Prod.ext hpaired' hloose')

/-- A side in numbers, as the frequencies say. -/
theorem shares_rational (log2 : Rat → Rat) (h : s.Proper) (paired : List Nat) :
    letI := Number.rational log2
    s.shares paired =
      { unmatched := s.looseShare paired
        other := 1 - s.nullFraction - s.pairedShare paired - s.looseShare paired
        values := s.values.length
        distinct := s.distinct } := by
  let _ := Number.rational log2
  have hpaired : 0 ≤ s.pairedShare paired := h.share_nonneg _
  have hloose : 0 ≤ s.looseShare paired := h.share_nonneg _
  have hwhole := h.whole paired
  have hnulls := h.nulls
  have hother : clampProbability
      (1 - s.nullFraction - s.pairedShare paired - s.looseShare paired) =
        1 - s.nullFraction - s.pairedShare paired - s.looseShare paired :=
    clampProbability_of_mem log2 (by linarith) (by linarith)
  rw [shares, split_rational log2 h]
  show SideShares.mk _ (clampProbability
    (1 - s.nullFraction - s.pairedShare paired - s.looseShare paired)) _ _ = _
  rw [hother]
  rfl

end JoinSide

/-! ## Bounds -/

/-- The rows of a side that are not null, in parts: those with a paired common
value, those with another one, and those with a value that is not common. -/
structure SideShares.Parts (x : SideShares Rat) (matched present : Rat) : Prop where
  paired : 0 ≤ matched
  unmatched : 0 ≤ x.unmatched
  other : 0 ≤ x.other
  total : matched + x.unmatched + x.other = present
  values : ∃ n : Nat, x.values = n
  distinct : ∃ n : Nat, x.distinct = n

theorem JoinSide.Proper.parts (log2 : Rat → Rat) {s : JoinSide Rat} (h : s.Proper)
    (paired : List Nat) :
    letI := Number.rational log2
    (s.shares paired).Parts (s.pairedShare paired) (1 - s.nullFraction) := by
  let _ := Number.rational log2
  have hwhole := h.whole paired
  rw [JoinSide.shares_rational log2 h]
  constructor
  · exact h.share_nonneg _
  · exact h.share_nonneg _
  · show 0 ≤ 1 - s.nullFraction - s.pairedShare paired - s.looseShare paired
    linarith
  · show s.pairedShare paired + s.looseShare paired +
      (1 - s.nullFraction - s.pairedShare paired - s.looseShare paired) = 1 - s.nullFraction
    ring
  · exact ⟨s.values.length, rfl⟩
  · exact h.distinct

/-- Pairs spread over the distinct values behind those that are listed, if there
are any. -/
def spread (sum pairs distinct listed : Rat) : Rat :=
  if listed < distinct then sum + pairs / (distinct - listed) else sum

theorem spread_bounds (sum : Rat) {pairs : Rat} (hpairs : 0 ≤ pairs) (distinct listed : Nat) :
    sum ≤ spread sum pairs distinct listed ∧ spread sum pairs distinct listed ≤ sum + pairs := by
  rw [spread]
  split
  · rename_i hlt
    -- Whole numbers that differ do so by at least 1.
    have hone : (1 : Rat) ≤ distinct - listed := by
      have hsucc : listed + 1 ≤ distinct := Nat.cast_lt.mp hlt
      have hcast : ((listed + 1 : Nat) : Rat) ≤ distinct := Nat.cast_le.mpr hsucc
      rw [Nat.cast_add, Nat.cast_one] at hcast
      linarith
    have hshare := div_nonneg hpairs (zero_le_one.trans hone)
    exact ⟨by linarith, add_le_add_right (div_le_self hpairs hone) sum⟩
  · exact ⟨le_refl sum, le_add_of_nonneg_right hpairs⟩

theorem estimateFrom_rational (log2 : Rat → Rat) (sum count : Rat) (own facing : SideShares Rat) :
    letI := Number.rational log2
    estimateFrom sum count own facing =
      spread (spread sum (own.unmatched * facing.other) facing.distinct facing.values)
        (own.other * (facing.other + facing.unmatched)) facing.distinct count := rfl

/-- Seen from either side, an estimate is no smaller than the share of the pairs,
and no larger than all pairs of rows that are not null. -/
theorem estimateFrom_bounds (log2 : Rat → Rat) {sum paired paired' present present' : Rat}
    {own facing : SideShares Rat} (hown : own.Parts paired present)
    (hfacing : facing.Parts paired' present') (hsum : sum ≤ paired * paired') (count : Nat) :
    letI := Number.rational log2
    sum ≤ estimateFrom sum (Number.ofNat count) own facing ∧
      estimateFrom sum (Number.ofNat count) own facing ≤ present * present' := by
  let _ := Number.rational log2
  obtain ⟨values, hvalues⟩ := hfacing.values
  obtain ⟨distinct, hdistinct⟩ := hfacing.distinct
  have hcount : (Number.ofNat count : Rat) = count := Int.cast_natCast count
  have hloose := spread_bounds sum (mul_nonneg hown.unmatched hfacing.other) distinct values
  have hrest := spread_bounds
    (spread sum (own.unmatched * facing.other) distinct values)
    (mul_nonneg hown.other (add_nonneg hfacing.other hfacing.unmatched)) distinct count
  rw [estimateFrom_rational, hvalues, hdistinct, hcount]
  refine ⟨hloose.1.trans hrest.1, ?_⟩
  -- These pairs of parts are left out.
  have hleft := add_nonneg (mul_nonneg hown.paired hfacing.unmatched)
    (mul_nonneg hown.paired hfacing.other)
  have hright := add_nonneg (mul_nonneg hown.unmatched hfacing.paired)
    (mul_nonneg hown.other hfacing.paired)
  have hboth := mul_nonneg hown.unmatched hfacing.unmatched
  rw [← hown.total, ← hfacing.total]
  calc spread (spread sum (own.unmatched * facing.other) distinct values)
        (own.other * (facing.other + facing.unmatched)) distinct count
      ≤ sum + own.unmatched * facing.other + own.other * (facing.other + facing.unmatched) := by
        linarith [hloose.2, hrest.2]
    _ ≤ paired * paired' + own.unmatched * facing.other +
          own.other * (facing.other + facing.unmatched) := by linarith
    _ ≤ (paired + own.unmatched + own.other) * (paired' + facing.unmatched + facing.other) := by
        linarith

section Pairs

variable {log2 : Rat → Rat} {l r : JoinSide Rat} {op : Procedure Rat} {pairs : List (Nat × Nat)}

theorem pairSum_rational (log2 : Rat → Rat) (l r : JoinSide Rat) (pairs : List (Nat × Nat)) :
    letI := Number.rational log2
    pairSum l r pairs =
      (pairs.map fun x => l.numbers[x.1]?.getD 0 * r.numbers[x.2]?.getD 0).sum := by
  let _ := Number.rational log2
  rw [pairSum, List.sum_eq_foldl, List.foldl_map]
  rfl

/-- The pairs are a part of the pairs of rows with paired values. -/
theorem pairSum_bounds (hl : l.Proper) (hr : r.Proper)
    (hpairs : @PairedOff Rat (Number.rational log2) op l.values r.values pairs) :
    letI := Number.rational log2
    0 ≤ pairSum l r pairs ∧
      pairSum l r pairs ≤
        l.pairedShare (pairs.map (·.1)) * r.pairedShare (pairs.map (·.2)) := by
  let _ := Number.rational log2
  have hfst : l.pairedShare (pairs.map (·.1)) =
      (pairs.map fun x => l.numbers[x.1]?.getD 0).sum := by
    rw [JoinSide.pairedShare_eq hpairs.left fun i => hpairs.fst_lt, JoinSide.share, List.map_map]
    rfl
  have hsnd : r.pairedShare (pairs.map (·.2)) =
      (pairs.map fun x => r.numbers[x.2]?.getD 0).sum := by
    rw [JoinSide.pairedShare_eq hpairs.right fun j => hpairs.snd_lt, JoinSide.share, List.map_map]
    rfl
  have hl' (x : Nat × Nat) := hl.frequency_nonneg x.1
  have hr' (x : Nat × Nat) := hr.frequency_nonneg x.2
  rw [pairSum_rational, hfst, hsnd]
  refine ⟨List.sum_nonneg ?_, sum_mul_le (fun x _ => hl' x) fun x _ => hr' x⟩
  intro f hf
  obtain ⟨x, -, rfl⟩ := List.mem_map.mp hf
  exact mul_nonneg (hl' x) (hr' x)

/-- The smaller of two views keeps what holds of both. -/
theorem fromPairs_bounds (hl : l.Proper) (hr : r.Proper)
    (hpairs : @PairedOff Rat (Number.rational log2) op l.values r.values pairs) :
    letI := Number.rational log2
    0 ≤ fromPairs l r pairs ∧
      fromPairs l r pairs ≤ (1 - l.nullFraction) * (1 - r.nullFraction) := by
  let _ := Number.rational log2
  have hlparts := hl.parts log2 (pairs.map (·.1))
  have hrparts := hr.parts log2 (pairs.map (·.2))
  obtain ⟨hnonneg, hle⟩ := pairSum_bounds hl hr hpairs
  have hle' : pairSum l r pairs ≤
      r.pairedShare (pairs.map (·.2)) * l.pairedShare (pairs.map (·.1)) := by
    rw [mul_comm]
    exact hle
  obtain ⟨hlow, hhigh⟩ := estimateFrom_bounds log2 hlparts hrparts hle pairs.length
  obtain ⟨hlow', -⟩ := estimateFrom_bounds log2 hrparts hlparts hle' pairs.length
  obtain ⟨-, hlone⟩ := present_mem hl.nulls hl.frequencies hl.total
  obtain ⟨hrpresent, hrone⟩ := present_mem hr.nulls hr.frequencies hr.total
  have hone : pairSum l r pairs ≤ 1 :=
    (hlow.trans hhigh).trans (mul_le_one₀ hlone hrpresent hrone)
  rw [fromPairs, clampProbability_of_mem log2 hnonneg hone, Number.min_rational]
  exact ⟨le_min (hnonneg.trans hlow) (hnonneg.trans hlow'), (min_le_left _ _).trans hhigh⟩

end Pairs

/-! ## Columns with statistics -/

section Columns

variable {log2 : Rat → Rat} {p : Planner Rat} {v l r : Variable Rat}
  {stats ls rs : ColumnStatistics Rat} {mcv : SlotView Rat}

/-- A whole number of values, at least one. -/
def IsCount (x : Rat) : Prop := ∃ n : Nat, 1 ≤ n ∧ x = n

theorem IsCount.one_le {x : Rat} (h : IsCount x) : 1 ≤ x := by
  obtain ⟨n, hn, rfl⟩ := h
  exact Nat.one_le_cast.mpr hn

theorem isCount_max_one (n : Int) : IsCount (max (n : Rat) 1) := by
  rcases le_total n 1 with hle | hge
  · exact ⟨1, le_refl 1, max_eq_right (Int.cast_le.mpr hle)⟩
  · obtain ⟨m, rfl⟩ := Int.eq_ofNat_of_zero_le (zero_le_one.trans hge)
    exact ⟨m, Int.ofNat_le.mp hge, max_eq_left (Int.cast_le.mpr hge)⟩

/-- Statistics that count the distinct values, or say which share of the rows
is distinct, give a count, if the default is one. -/
theorem isCount_distinctCount (log2 : Rat → Rat)
    (hdefault : IsCount p.settings.selectivity.distinct)
    (hrecorded : @Variable.recordedDistinct Rat (Number.rational log2) v < 0 ∨
      IsCount (@Variable.recordedDistinct Rat (Number.rational log2) v)) :
    IsCount (@Variable.distinctCount Rat (Number.rational log2) p v) := by
  let _ := Number.rational log2
  rw [Variable.distinctCount]
  generalize hdistinct : (if !Number.equal v.recordedDistinct (-1) && v.provenUnique then -1
    else v.recordedDistinct) = distinct
  -- A unique index makes it a share, the whole.
  have hsign : distinct < 0 ∨ IsCount distinct := by
    rw [← hdistinct]
    split
    · exact .inl (by decide +kernel)
    · exact hrecorded
  split
  · rename_i hpositive
    exact hsign.resolve_left hpositive.not_gt
  · rename_i hnonpositive
    have hnegative : distinct < 0 := by
      refine hsign.resolve_right ?_
      rintro ⟨n, hn, hdn⟩
      exact hnonpositive (hdn ▸ Nat.cast_pos.mpr hn)
    cases v.relation with
    | none => exact hdefault
    | some r =>
        dsimp only
        split
        · rw [Number.max_rational]
          exact isCount_max_one _
        · exact hdefault

/-- The common values of proper statistics are a proper side. -/
theorem joinSide_proper (hstats : v.statistics = some stats) (hproper : stats.Proper)
    (hcount : IsCount (@Variable.distinctCount Rat (Number.rational log2) p v))
    (hmcv : v.slot? .mcv none = some mcv) :
    (@joinSide Rat (Number.rational log2) p v mcv).Proper := by
  let _ := Number.rational log2
  rw [Variable.slot?_of_statistics hstats] at hmcv
  obtain ⟨slot, hslot, rfl⟩ := Option.map_eq_some_iff.mp hmcv
  have hnumbers : stats.commonNumbers = slot.numbers := by
    rw [ColumnStatistics.commonNumbers, hslot]
  have hfrequencies := hproper.frequencies
  have htotal := hproper.total
  rw [hnumbers] at hfrequencies htotal
  have htaken := List.take_sublist v.slotLimit slot.numbers
  have hnulls := Variable.nullFraction_of_statistics hstats
  obtain ⟨n, -, hn⟩ := hcount
  constructor
  · show 0 ≤ v.nullFraction
    rw [hnulls]
    exact hproper.nulls
  · exact fun f hf => hfrequencies f (htaken.subset hf)
  · have hsum := htaken.sum_le_sum hfrequencies
    show v.nullFraction + (slot.numbers.take v.slotLimit).sum ≤ 1
    rw [hnulls]
    linarith
  · exact ⟨n, hn⟩

/-- Where the common values of a side are not known, the rows that are not
null are spread over the values of the column with more of them. -/
theorem spreadOver_bounds {x y d : Rat} (hx : 0 ≤ x) (hy : 0 ≤ y) (hd : 1 ≤ d) :
    0 ≤ x * y / d ∧ x * y / d ≤ x * y :=
  ⟨div_nonneg (mul_nonneg hx hy) (zero_le_one.trans hd), div_le_self (mul_nonneg hx hy) hd⟩

/-- No pair of rows with a null is counted. -/
theorem joinFraction_bounds (op : Procedure Rat) (hlstats : l.statistics = some ls)
    (hrstats : r.statistics = some rs) (hls : ls.Proper) (hrs : rs.Proper)
    (hlcount : IsCount (@Variable.distinctCount Rat (Number.rational log2) p l))
    (hrcount : IsCount (@Variable.distinctCount Rat (Number.rational log2) p r)) :
    letI := Number.rational log2
    0 ≤ joinFraction p op l r ∧
      joinFraction p op l r ≤ (1 - ls.nullFraction) * (1 - rs.nullFraction) := by
  let _ := Number.rational log2
  have hunknown : 0 ≤ (1 - l.nullFraction) * (1 - r.nullFraction) /
        Number.max (l.distinctCount p) (r.distinctCount p) ∧
      (1 - l.nullFraction) * (1 - r.nullFraction) /
        Number.max (l.distinctCount p) (r.distinctCount p) ≤
          (1 - ls.nullFraction) * (1 - rs.nullFraction) := by
    obtain ⟨hl, -⟩ := present_mem hls.nulls hls.frequencies hls.total
    obtain ⟨hr, -⟩ := present_mem hrs.nulls hrs.frequencies hrs.total
    rw [Variable.nullFraction_of_statistics hlstats,
      Variable.nullFraction_of_statistics hrstats, Number.max_rational]
    exact spreadOver_bounds hl hr (le_max_of_le_left hlcount.one_le)
  rw [joinFraction]
  cases hml : l.slot? .mcv none with
  | none => exact hunknown
  | some ml =>
      cases hmr : r.slot? .mcv none with
      | none => exact hunknown
      | some mr =>
          have hl := joinSide_proper hlstats hls hlcount hml
          have hr := joinSide_proper hrstats hrs hrcount hmr
          have hbounds := fromPairs_bounds hl hr (pairedOff_pairUp op ml.values mr.values)
          dsimp only
          rw [fromCommonValues_eq, ← Variable.nullFraction_of_statistics hlstats,
            ← Variable.nullFraction_of_statistics hrstats]
          exact hbounds

/-- **An equality of two columns keeps no row with a null.**  In exact numbers,
where the frequencies are proper and distinct values are counted, it keeps at
most the pairs of rows that have a value on both sides, in every join that
keeps the duplicates of its inner input.  So moving the estimate into `[0, 1]`
does nothing, and a common value is paired with at most one of the other
side. -/
theorem joinEquality_le_present (log2 : Rat → Rat) {a b : Expr Rat} {opno : Oid}
    {op : Operator Rat} {type : JoinType} (htype : type.dedupsInner = false)
    (hop : p.operators.get? opno = some op)
    (hl : @Variable.examine Rat (Number.rational log2) p a none = .ok l)
    (hr : @Variable.examine Rat (Number.rational log2) p b none = .ok r)
    (hlstats : l.statistics = some ls) (hrstats : r.statistics = some rs)
    (hls : ls.Proper) (hrs : rs.Proper)
    (hlcount : IsCount (@Variable.distinctCount Rat (Number.rational log2) p l))
    (hrcount : IsCount (@Variable.distinctCount Rat (Number.rational log2) p r)) :
    letI := Number.rational log2
    let f := joinFraction p op.procedure l r
    joinEquality p opno [a, b] type = .ok (clampProbability f) ∧ clampProbability f = f ∧
      f ≤ (1 - ls.nullFraction) * (1 - rs.nullFraction) ∧
      ∀ values others : List (Datum Rat),
        PairedOff op.procedure values others (pairUp op.procedure others [] 0 values) := by
  let _ := Number.rational log2
  intro f
  obtain ⟨hnonneg, hle⟩ := joinFraction_bounds op.procedure hlstats hrstats hls hrs hlcount hrcount
  obtain ⟨-, hlone⟩ := present_mem hls.nulls hls.frequencies hls.total
  obtain ⟨hrpresent, hrone⟩ := present_mem hrs.nulls hrs.frequencies hrs.total
  have hone : f ≤ 1 := hle.trans (mul_le_one₀ hlone hrpresent hrone)
  exact ⟨joinEquality_eq htype hop hl hr, clampProbability_of_mem log2 hnonneg hone, hle,
    pairedOff_pairUp op.procedure⟩

end Columns

section Example

/-- Ages of which two are common, and of which so many are distinct. -/
def commonAges (nulls distinct : Rat) (values : List (Datum Rat)) (numbers : List Rat) :
    ColumnStatistics Rat where
  nullFraction := nulls
  averageWidth := 4
  distinct := distinct
  slots := [⟨.mcv, 1012, values, numbers⟩]

def members : ColumnStatistics Rat :=
  commonAges (1 / 10) 8 [.int4 30, .int4 45] [1 / 5, 1 / 10]

def guests : ColumnStatistics Rat :=
  commonAges (1 / 5) 5 [.int4 45, .int4 60] [1 / 4, 1 / 5]

theorem members_proper : members.Proper where
  nulls := by decide +kernel
  frequencies := by decide +kernel
  total := by decide +kernel

theorem guests_proper : guests.Proper where
  nulls := by decide +kernel
  frequencies := by decide +kernel
  total := by decide +kernel

/-- The column `$1.1` or `$2.1` of these tables. -/
def columnOf (table : RtIndex) : Variable Rat :=
  letI := Number.rational id
  { Variable.bound (twoTables members guests) (.var ⟨table, 1, .int4, -1⟩)
      (some (Relation.blank (table - 1) .base (RelSet.singleton table))) with
    statistics := some (if table = 1 then members else guests) }

theorem examine_columnOf {table : RtIndex} (h : table = 1 ∨ table = 2) :
    letI := Number.rational id
    Variable.examine (twoTables members guests) (.var ⟨table, 1, .int4, -1⟩) none =
      .ok (columnOf table) := by
  let _ := Number.rational id
  obtain rfl | rfl := h
  · have hconcerns : Variable.concerns none (1 : RtIndex) = true := rfl
    exact Variable.examine_column (p := twoTables members guests) (v := ⟨1, 1, .int4, -1⟩)
      hconcerns rfl rfl
  · have hconcerns : Variable.concerns none (2 : RtIndex) = true := rfl
    exact Variable.examine_column (p := twoTables members guests) (v := ⟨2, 1, .int4, -1⟩)
      hconcerns rfl rfl

/-- `$1.1 = $2.1`, where 45 is common in both tables -/
theorem joinEquality_le_present_ages :
    letI := Number.rational id
    members.Proper ∧ guests.Proper ∧
      ∃ f, joinEquality (twoTables members guests) 1012 firstColumns .inner = .ok f ∧
        f ≤ (1 - 1 / 10) * (1 - 1 / 5) := by
  let _ := Number.rational id
  have hkeeps : JoinType.inner.dedupsInner = false := rfl
  have hop : (twoTables members guests).operators.get? 1012 = some sameAge := rfl
  have hdefault : IsCount (twoTables members guests).settings.selectivity.distinct :=
    ⟨200, by decide, by decide +kernel⟩
  have hlcount : IsCount members.distinct := ⟨8, by decide, rfl⟩
  have hrcount : IsCount guests.distinct := ⟨5, by decide, rfl⟩
  obtain ⟨hestimate, hclamp, hle, -⟩ := joinEquality_le_present id hkeeps hop
    (examine_columnOf (.inl rfl)) (examine_columnOf (.inr rfl)) rfl rfl members_proper
    guests_proper (isCount_distinctCount id hdefault (.inr hlcount))
    (isCount_distinctCount id hdefault (.inr hrcount))
  exact ⟨members_proper, guests_proper, _, hestimate, hclamp.trans_le hle⟩

end Example

end Selectivity

end QueryPlanner
