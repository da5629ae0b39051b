import EmuFlow.Lib.AssignmentDual
import EmuFlow.PinPlanner.Refine

/-!
# Assignment of groups to pins

`assign_pins` of `native/placement_aware_pin_planner.cpp`, a search with potentials. Rows and
columns count from one, and row zero stands for no row. A search from a new row marks one column a
turn until it comes to a free one; the rows on its way move by one column.
-/

namespace EmuFlow.PinPlanner

open Function (update)

/-! ## the loops -/

structure Search where
  u : ℕ → ℚ
  v : ℕ → ℚ
  /-- `none` for infinity. -/
  minv : ℕ → Option ℚ
  way : ℕ → ℕ
  used : ℕ → Bool
  j0 : ℕ

/-- The variables of the loop over the columns, with `delta` and `j1`. -/
structure Scan where
  minv : ℕ → Option ℚ
  way : ℕ → ℕ
  best : Option (ℚ × ℕ)

variable (cost : ℕ → ℕ → ℚ) (m : ℕ) (p : ℕ → ℕ)

/-- `cur` -/
def reduced (u v : ℕ → ℚ) (i j : ℕ) : ℚ := cost i j - u i - v j

/-- `minv[j]` and `way[j]` after the first comparison. -/
def Scan.lower (scan : Scan) (cur : ℚ) (j0 j : ℕ) : ℚ × ℕ :=
  match scan.minv j with
  | none => (cur, j0)
  | some value => if cur < value then (cur, j0) else (value, scan.way j)

/-- `delta` and `j1` after the second comparison. -/
def least (best : Option (ℚ × ℕ)) (value : ℚ) (j : ℕ) : Option (ℚ × ℕ) :=
  match best with
  | none => some (value, j)
  | some (delta, j1) =>
    if value < delta ∨ value = delta ∧ j < j1 then some (value, j) else some (delta, j1)

def scanColumn (u v : ℕ → ℚ) (used : ℕ → Bool) (j0 : ℕ) (scan : Scan) (j : ℕ) : Scan :=
  if used j then scan
  else
    let lowered := scan.lower (reduced cost u v (p j0) j) j0 j
    { minv := update scan.minv j (some lowered.1)
      way := update scan.way j lowered.2
      best := least scan.best lowered.1 j }

/-- One turn of the loop that applies `delta`. -/
def shiftColumn (used : ℕ → Bool) (delta : ℚ)
    (state : (ℕ → ℚ) × (ℕ → ℚ) × (ℕ → Option ℚ)) (j : ℕ) :
    (ℕ → ℚ) × (ℕ → ℚ) × (ℕ → Option ℚ) :=
  if used j then
    (update state.1 (p j) (state.1 (p j) + delta),
      update state.2.1 j (state.2.1 j - delta), state.2.2)
  else (state.1, state.2.1, update state.2.2 j ((state.2.2 j).map fun x => x - delta))

/-- One turn of the search, or `none` when no column is left and it would never end. -/
def searchTurn (search : Search) : Option Search :=
  let used := update search.used search.j0 true
  let scan := (List.range' 1 m).foldl
    (scanColumn cost p search.u search.v used search.j0)
    { minv := search.minv, way := search.way, best := none }
  match scan.best with
  | none => none
  | some (delta, j1) =>
    let shifted := (List.range (m + 1)).foldl (shiftColumn p used delta)
      (search.u, search.v, scan.minv)
    some { u := shifted.1, v := shifted.2.1, minv := shifted.2.2, way := scan.way, used := used
           j0 := j1 }

def searchLoop : ℕ → Search → Option Search
  | 0, _ => none
  | fuel + 1, search =>
    match searchTurn cost m p search with
    | none => none
    | some search => if p search.j0 ≠ 0 then searchLoop fuel search else some search

/-- The loop back along `way`. -/
def augment (way : ℕ → ℕ) : ℕ → ℕ → (ℕ → ℕ) → Option (ℕ → ℕ)
  | 0, _, _ => none
  | fuel + 1, j0, p =>
    let next := update p j0 (p (way j0))
    if way j0 ≠ 0 then augment way fuel (way j0) next else some next

structure Rows where
  u : ℕ → ℚ := fun _ => 0
  v : ℕ → ℚ := fun _ => 0
  p : ℕ → ℕ := fun _ => 0
  way : ℕ → ℕ := fun _ => 0

def assignRow (rows : Rows) (i : ℕ) : Option Rows := do
  let p := update rows.p 0 i
  let search ← searchLoop cost m p (m + 1)
    { u := rows.u, v := rows.v, minv := fun _ => none, way := rows.way, used := fun _ => false
      j0 := 0 }
  let p ← augment search.way (m + 1) search.j0 p
  return { u := search.u, v := search.v, p := p, way := search.way }

/-- The column of each row, from zero, or `-1`. -/
def rowColumns (p : ℕ → ℕ) : ℕ → ℤ :=
  (List.range' 1 m).foldl (fun result pin =>
    if 0 < p pin then update result (p pin - 1) ((pin : ℤ) - 1) else result) fun _ => -1

def assignRows (n : ℕ) : Option Rows :=
  (List.range' 1 n).foldlM (assignRow cost m) {}

def pinY (lanes pin : ℕ) : ℚ := if lanes = 1 then 1 / 2 else ((pin : ℚ) - 1) / (lanes - 1)

def Input.pinCost (input : Input) (lanes : ℕ) (group : Group input.size) (pin : ℕ) : ℚ :=
  (group.signals.map fun i => |(input.signals i).sourceY - pinY lanes pin| +
    |(input.signals i).sinkY - pinY lanes pin|).sum

/-- `assign_pins`, or `none` when the search does not end. -/
def Input.assignPins (input : Input) (groups : List (Group input.size)) (lanes : ℕ) :
    Option (List ℤ) :=
  (assignRows (fun i pin => ((groups[i - 1]?).map fun group =>
      input.pinCost lanes group pin).getD 0) lanes groups.length).map fun rows =>
    (List.range groups.length).map (rowColumns lanes rows.p)

end EmuFlow.PinPlanner
