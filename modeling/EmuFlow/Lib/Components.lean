import EmuFlow.Lib.SortedSet

/-!
# Strongly connected components

Two searches with explicit stacks: the first orders the nodes by when they are finished, the second
collects, in the opposite order, what reaches a node along reversed edges.
-/

namespace Components

open SortedSet

variable {α : Type} [LinearOrder α]

/-- The first search from a stack of nodes; the nodes seen and those finished, in order. -/
def finish (adjacency : α → List α) :
    Nat → List (α × Nat) → List α → List α → List α × List α
  | 0, _, seen, finished => (seen, finished)
  | _ + 1, [], seen, finished => (seen, finished)
  | fuel + 1, (node, index) :: stack, seen, finished =>
    match (adjacency node)[index]? with
    | some sink =>
      if sink ∈ seen then finish adjacency fuel ((node, index + 1) :: stack) seen finished
      else finish adjacency fuel ((sink, 0) :: (node, index + 1) :: stack) (sink :: seen) finished
    | none => finish adjacency fuel stack seen (finished ++ [node])

def finishOrder (adjacency : α → List α) (fuel : Nat) (nodes : List α) : List α :=
  ((sorted nodes).foldl (fun state start =>
    if start ∈ state.1 then state
    else finish adjacency fuel [(start, 0)] (start :: state.1) state.2) ([], [])).2

def collect (reverse : α → List α) : Nat → List α → List α → List α → List α × List α
  | 0, _, assigned, component => (assigned, component)
  | _ + 1, [], assigned, component => (assigned, component)
  | fuel + 1, node :: stack, assigned, component =>
    let new := (reverse node).reverse.filter fun source => source ∉ assigned
    collect reverse fuel (new.dedup.reverse ++ stack) (new.dedup ++ assigned) (component ++ [node])

def stronglyConnectedComponents (nodes : List α) (adjacency : α → List α) : List (List α) :=
  let ordered := fun node => if node ∈ nodes then sortedSet (adjacency node) else []
  let reverse := fun node => sorted (nodes.filter fun source => node ∈ ordered source)
  let fuel := (nodes.map fun node => (ordered node).length + 1).sum + 1
  let components := ((finishOrder ordered fuel nodes).reverse.foldl (fun state start =>
    if start ∈ state.1 then state
    else
      let found := collect reverse fuel [start] (start :: state.1) []
      (found.1, state.2 ++ [sorted found.2])) (([] : List α), ([] : List (List α)))).2
  sortedBy (fun component => component.head?.elim (⊥ : WithBot α) fun a =>
    (a : WithBot α)) components

example : stronglyConnectedComponents ["a", "b", "c", "d"]
    (fun n => if n = "a" then ["b"] else if n = "b" then ["c"] else if n = "c" then ["b", "d"]
      else [])
      = [["a"], ["b", "c"], ["d"]] := by
  decide +kernel

end Components
