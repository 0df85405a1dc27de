/-! # Graph search

    A depth-first search over nodes that are natural numbers.  The marks say
    which nodes have been visited; nodes beyond the marks do not exist. -/

namespace AsmCheck.Graph

/-- The weights of the first `n` nodes together. -/
def load (weight : Nat → Nat) : Nat → Nat
  | 0 => 0
  | n + 1 => load weight n + weight n

theorem load_le {weight weight' : Nat → Nat} (hle : ∀ j, weight' j ≤ weight j) (n : Nat) :
    load weight' n ≤ load weight n := by
  induction n with
  | zero => exact Nat.le_refl 0
  | succ n ih => exact Nat.add_le_add ih (hle n)

/-- Taking weight off the nodes, and at least `c` off one of them, makes them lighter by `c`. -/
theorem load_add_le {weight weight' : Nat → Nat} {i c : Nat} (hle : ∀ j, weight' j ≤ weight j)
    (hi : weight' i + c ≤ weight i) {n : Nat} (hn : i < n) :
    load weight' n + c ≤ load weight n := by
  induction n with
  | zero => exact absurd hn (Nat.not_lt_zero i)
  | succ n ih =>
      show load weight' n + weight' n + c ≤ load weight n + weight n
      rcases Nat.lt_or_eq_of_le (Nat.le_of_lt_succ hn) with hlt | rfl
      · have := ih hlt
        have := hle n
        omega
      · have := load_le hle i
        omega

/-- What is still to be done from the unmarked nodes: a visit to each, and a look at each of its
    successors. -/
def pending (succ : Nat → List Nat) (seen : Array Bool) : Nat :=
  load (fun i => if seen[i]? = some false then (succ i).length + 1 else 0) seen.size

/-- Marking an unmarked node makes up for its successors. -/
theorem pending_mark_le (succ : Nat → List Nat) {seen : Array Bool} {i : Nat}
    (h : seen[i]? = some false) :
    pending succ (seen.setIfInBounds i true) + ((succ i).length + 1) ≤ pending succ seen := by
  have hi : i < seen.size := (Array.getElem?_eq_some_iff.mp h).1
  have hself : (seen.setIfInBounds i true)[i]? = some true := by
    rw [Array.getElem?_setIfInBounds, if_pos rfl, if_pos hi]
  rw [pending, pending, Array.size_setIfInBounds]
  refine load_add_le ?_ ?_ hi
  · intro j
    by_cases hij : i = j
    · subst hij
      rw [if_neg (by rw [hself]; exact fun h => nomatch h)]
      exact Nat.zero_le _
    · exact Nat.le_of_eq (by rw [Array.getElem?_setIfInBounds, if_neg hij])
  · refine Nat.le_of_eq ?_
    rw [if_neg (by rw [hself]; exact fun h => nomatch h), if_pos h, Nat.zero_add]

/-- Visits every unmarked node that can be reached from `todo` through unmarked nodes: gives the
    nodes in the order of their visits, and the marks afterwards.  The successors of a node come
    before what was to be done already. -/
def visit (succ : Nat → List Nat) (seen : Array Bool) : List Nat → List Nat × Array Bool
  | [] => ([], seen)
  | i :: todo =>
    if seen[i]? = some false then
      let rest := visit succ (seen.setIfInBounds i true) (succ i ++ todo)
      (i :: rest.1, rest.2)
    else visit succ seen todo
termination_by todo => pending succ seen + todo.length
decreasing_by
  · have := pending_mark_le succ (by assumption)
    rw [List.length_append, List.length_cons]
    omega
  · exact Nat.lt_succ_self _

/-- Marks for `n` nodes of which none has been visited. -/
def unmarked (n : Nat) : Array Bool :=
  Array.replicate n false

/-- The nodes that can be reached from one of `n` nodes, itself included. -/
def reachable (succ : Nat → List Nat) (n : Nat) (i : Nat) : List Nat :=
  (visit succ (unmarked n) [i]).1

end AsmCheck.Graph
