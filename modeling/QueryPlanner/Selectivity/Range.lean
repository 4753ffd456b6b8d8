/-
  QueryPlanner.Selectivity.Range

  The fraction of rows that an ordering comparison with a constant keeps.

  The most common values are compared one by one; for the rest the place of
  the constant in the histogram counts, interpolated inside its bucket.
-/

import QueryPlanner.Datum.Scale
import QueryPlanner.Selectivity.Equality

namespace QueryPlanner.Selectivity

variable {α : Type} [Number α]

/-- A histogram is never trusted closer to nothing, or to everything, than
this. -/
def histogramFloor : α := 0.0001
def histogramCeiling : α := 0.9999

/-- The frequencies of the common values of which a property holds, and of
all of them. -/
def commonFrequencies (holds : Datum α → Bool) (mcv : Option (SlotView α)) : α × α :=
  match mcv with
  | none => (0, 0)
  | some m =>
    (m.values.zip m.numbers).foldl
      (fun (kept, all) (value, frequency) =>
        (if holds value then kept + frequency else kept, all + frequency)) (0, 0)

/-- The share of a bucket below a place in it; the middle where the place is
not known. -/
def bucketShare : Option (α × α × α) → α
  | none => 0.5
  | some (value, lo, hi) =>
    if hi ≤ lo then 0.5
    else if value ≤ lo then 0
    else if hi ≤ value then 1
    else
      let share := (value - lo) / (hi - lo)
      if 0 ≤ share ∧ share ≤ 1 then share else 0.5

/-- The share of a histogram's values below a constant, given which bounds
sort below it and the share of a bucket between two bounds. -/
def histogramShare (below : Datum α → Bool) (share : Datum α → Datum α → α)
    (bounds : List (Datum α)) : α :=
  match bounds with
  | [] => 0
  | first :: rest =>
    if !below first then 0
    else
      match rest.findIdx? fun b => !below b with
      | none => 1
      | some i =>
        match bounds[i]?, rest[i]? with
        | some lo, some hi => (Number.ofNat i + share lo hi) / Number.ofNat rest.length
        | _, _ => 1

/-- The fraction of histogram values a comparison keeps; a histogram needs
two bounds. -/
def histogramFraction (op : Procedure α) (greater : Bool) (constant : Datum α)
    (type boundsType : DataType) (histogram : Option (SlotView α)) : Option α :=
  match histogram with
  | none => none
  | some h =>
    if 1 < h.values.length then
      let share := histogramShare (fun b => op.holds b constant != greater)
        (fun lo hi => bucketShare (Scale.convert? constant type lo hi boundsType)) h.values
      some (Number.clamp histogramFloor histogramCeiling (if greater then 1 - share else share))
    else none

/-- `variable op constant` with an ordering operator; `greater` tells `>` and
`>=` from `<` and `<=`. -/
def comparison (p : Planner α) (opno : Oid) (greater : Bool) (v : Variable α)
    (constant : Datum α) (type : DataType) : Except (PlanError α) α := do
  match v.statistics with
  | none => return p.settings.selectivity.inequality
  | some s =>
    let op := (← p.operators.lookup opno).procedure
    let (kept, common) := commonFrequencies (op.holds · constant) (v.slot? .mcv none)
    let fraction := (histogramFraction op greater constant type v.type
      (v.slot? .histogram none)).getD 0.5
    return clampProbability ((1 - s.nullFraction - common) * fraction + kept)

/-- `variable < something` and its kin, or with `greater` `variable >
something`, written either way round. -/
def scalar (p : Planner α) (opno : Oid) (greater : Bool) (args : List (Expr α))
    (var : Option RtIndex) : Except (PlanError α) α := do
  let default := p.settings.selectivity.inequality
  match ← Variable.restriction? p args var with
  | none => return default
  | some r =>
    match comparand r.other with
    | .null => return 0
    | .unknown => return default
    | .value constant type =>
      if r.onLeft then comparison p opno greater r.var constant type
      else
        match p.operators.commutator? opno with
        | some commuted => comparison p commuted (!greater) r.var constant type
        | none => return default

end QueryPlanner.Selectivity
