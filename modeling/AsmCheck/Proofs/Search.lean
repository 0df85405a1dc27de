import AsmCheck.Graph.Search
import Mathlib.Logic.Relation

/-! # What a graph search visits

    A search visits exactly the nodes that can be reached from where it starts
    through unmarked nodes, each of them once, and it marks what it visits.
    The two halves are inductions along the search: whatever it visits is
    reachable, and what it has visited is closed under open edges. -/

namespace AsmCheck.Graph

open Relation

/-- A node that exists and has not been visited. -/
def Open (seen : Array Bool) (i : Nat) : Prop :=
  seen[i]? = some false

/-- An edge into an open node. -/
def OpenEdge (succ : Nat → List Nat) (seen : Array Bool) (i j : Nat) : Prop :=
  j ∈ succ i ∧ Open seen j

variable {succ : Nat → List Nat} {seen : Array Bool}

private theorem visit_open {i : Nat} {todo : List Nat} (h : Open seen i) :
    visit succ seen (i :: todo) =
      (i :: (visit succ (seen.setIfInBounds i true) (succ i ++ todo)).1,
        (visit succ (seen.setIfInBounds i true) (succ i ++ todo)).2) := by
  rw [visit]
  exact if_pos h

private theorem visit_shut {i : Nat} {todo : List Nat} (h : ¬ Open seen i) :
    visit succ seen (i :: todo) = visit succ seen todo := by
  rw [visit]
  exact if_neg h

theorem open_mark {i j : Nat} :
    Open (seen.setIfInBounds i true) j ↔ Open seen j ∧ j ≠ i := by
  rw [Open, Array.getElem?_setIfInBounds]
  by_cases hij : i = j
  · subst hij
    rw [if_pos rfl]
    constructor
    · intro h
      split at h
      · exact nomatch h
      · exact nomatch h
    · intro h
      exact absurd rfl h.2
  · rw [if_neg hij]
    exact ⟨fun h => ⟨h, Ne.symm hij⟩, fun h => h.1⟩

/-- Whatever is visited was open. -/
theorem open_of_mem_visit {i : Nat} {todo : List Nat}
    (h : i ∈ (visit succ seen todo).1) : Open seen i := by
  induction seen, todo using visit.induct succ with
  | case1 seen =>
      rw [visit] at h
      exact nomatch h
  | case2 seen j todo hj ih =>
      rw [visit_open hj] at h
      rcases List.mem_cons.mp h with rfl | hmem
      · exact hj
      · exact (open_mark.mp (ih hmem)).1
  | case3 seen j todo hj ih =>
      rw [visit_shut hj] at h
      exact ih h

/-- The marks afterwards: what was visited is marked, all else is as it was. -/
theorem getElem?_visit_snd (todo : List Nat) (i : Nat) :
    (visit succ seen todo).2[i]? =
      if i ∈ (visit succ seen todo).1 then some true else seen[i]? := by
  induction seen, todo using visit.induct succ with
  | case1 seen =>
      rw [visit]
      exact (if_neg List.not_mem_nil).symm
  | case2 seen j todo hj ih =>
      rw [visit_open hj]
      dsimp only
      rw [ih]
      by_cases hmem : i ∈ (visit succ (seen.setIfInBounds j true) (succ j ++ todo)).1
      · rw [if_pos hmem, if_pos (List.mem_cons_of_mem j hmem)]
      · rw [if_neg hmem, Array.getElem?_setIfInBounds]
        by_cases hij : j = i
        · subst hij
          rw [if_pos rfl, if_pos (List.mem_cons_self ..)]
          exact if_pos (Array.getElem?_eq_some_iff.mp hj).1
        · rw [if_neg hij, if_neg]
          intro h
          rcases List.mem_cons.mp h with rfl | h'
          · exact hij rfl
          · exact hmem h'
  | case3 seen j todo hj ih =>
      rw [visit_shut hj]
      exact ih

theorem size_visit_snd (todo : List Nat) : (visit succ seen todo).2.size = seen.size := by
  induction seen, todo using visit.induct succ with
  | case1 seen => rw [visit]
  | case2 seen j todo hj ih =>
      rw [visit_open hj]
      dsimp only
      rw [ih, Array.size_setIfInBounds]
  | case3 seen j todo hj ih =>
      rw [visit_shut hj]
      exact ih

/-- Whatever is visited can be reached through open nodes. -/
theorem exists_path_of_mem_visit {i : Nat} {todo : List Nat}
    (h : i ∈ (visit succ seen todo).1) :
    ∃ r ∈ todo, Open seen r ∧ ReflTransGen (OpenEdge succ seen) r i := by
  induction seen, todo using visit.induct succ with
  | case1 seen =>
      rw [visit] at h
      exact nomatch h
  | case2 seen j todo hj ih =>
      rw [visit_open hj] at h
      rcases List.mem_cons.mp h with rfl | hmem
      · exact ⟨i, List.mem_cons_self .., hj, .refl⟩
      · obtain ⟨r, hr, hopen, hpath⟩ := ih hmem
        have hpath' : ReflTransGen (OpenEdge succ seen) r i :=
          ReflTransGen.mono (fun a b hab => ⟨hab.1, (open_mark.mp hab.2).1⟩) r i hpath
        have hopen' : Open seen r := (open_mark.mp hopen).1
        -- the path starts at a successor of `j`, or was still to be searched from
        rcases List.mem_append.mp hr with hsucc | htodo
        · exact ⟨j, List.mem_cons_self .., hj, hpath'.head ⟨hsucc, hopen'⟩⟩
        · exact ⟨r, List.mem_cons_of_mem j htodo, hopen', hpath'⟩
  | case3 seen j todo hj ih =>
      rw [visit_shut hj] at h
      obtain ⟨r, hr, hrest⟩ := ih h
      exact ⟨r, List.mem_cons_of_mem j hr, hrest⟩

/-- The open nodes that a search is asked to visit are visited, and so is whatever an open edge
    leads to from there. -/
theorem visit_closed (succ : Nat → List Nat) (seen : Array Bool) (todo : List Nat) :
    (∀ r ∈ todo, Open seen r → r ∈ (visit succ seen todo).1) ∧
      ∀ a ∈ (visit succ seen todo).1, ∀ b, OpenEdge succ seen a b →
        b ∈ (visit succ seen todo).1 := by
  induction seen, todo using visit.induct succ with
  | case1 seen =>
      rw [visit]
      exact ⟨fun r hr => (nomatch hr), fun a ha => (nomatch ha)⟩
  | case2 seen j todo hj ih =>
      rw [visit_open hj]
      obtain ⟨ihtodo, ihclosed⟩ := ih
      -- a node that is open now is `j` itself or is still open once `j` is marked
      have hstill : ∀ b, Open seen b → b ≠ j → Open (seen.setIfInBounds j true) b :=
        fun b hb hne => open_mark.mpr ⟨hb, hne⟩
      constructor
      · intro r hr hopen
        by_cases hrj : r = j
        · exact List.mem_cons.mpr (Or.inl hrj)
        · have hr' : r ∈ todo := (List.mem_cons.mp hr).resolve_left hrj
          exact List.mem_cons_of_mem j
            (ihtodo r (List.mem_append.mpr (Or.inr hr')) (hstill r hopen hrj))
      · intro a ha b hab
        by_cases hbj : b = j
        · exact List.mem_cons.mpr (Or.inl hbj)
        · have hb := hstill b hab.2 hbj
          refine List.mem_cons_of_mem j ?_
          -- the successors of `j` itself went on the list
          rcases List.mem_cons.mp ha with rfl | ha'
          · exact ihtodo b (List.mem_append.mpr (Or.inl hab.1)) hb
          · exact ihclosed a ha' b ⟨hab.1, hb⟩
  | case3 seen j todo hj ih =>
      rw [visit_shut hj]
      refine ⟨fun r hr hopen => ?_, ih.2⟩
      rcases List.mem_cons.mp hr with rfl | hr'
      · exact absurd hopen hj
      · exact ih.1 r hr' hopen

/-- A search visits exactly what can be reached through open nodes. -/
theorem mem_visit_iff {i : Nat} {todo : List Nat} :
    i ∈ (visit succ seen todo).1 ↔
      ∃ r ∈ todo, Open seen r ∧ ReflTransGen (OpenEdge succ seen) r i := by
  constructor
  · exact exists_path_of_mem_visit
  · rintro ⟨r, hr, hopen, hpath⟩
    obtain ⟨htodo, hclosed⟩ := visit_closed succ seen todo
    induction hpath with
    | refl => exact htodo r hr hopen
    | tail _ hstep ih => exact hclosed _ ih _ hstep

/-- No node is visited twice. -/
theorem nodup_visit (succ : Nat → List Nat) (seen : Array Bool) (todo : List Nat) :
    (visit succ seen todo).1.Nodup := by
  induction seen, todo using visit.induct succ with
  | case1 seen =>
      rw [visit]
      exact List.nodup_nil
  | case2 seen j todo hj ih =>
      rw [visit_open hj]
      refine List.nodup_cons.mpr ⟨fun hmem => ?_, ih⟩
      exact (open_mark.mp (open_of_mem_visit hmem)).2 rfl
  | case3 seen j todo hj ih =>
      rw [visit_shut hj]
      exact ih

/-- In a graph of `n` nodes, what can be reached from a node is what paths lead to. -/
theorem mem_reachable_iff {n i j : Nat} (hsucc : ∀ a, ∀ b ∈ succ a, b < n) (hi : i < n) :
    j ∈ reachable succ n i ↔ ReflTransGen (fun a b => b ∈ succ a) i j := by
  have hopen : ∀ {a}, a < n → Open (unmarked n) a := by
    intro a ha
    rw [Open, unmarked, Array.getElem?_replicate, if_pos ha]
  rw [reachable, mem_visit_iff]
  constructor
  · rintro ⟨r, hr, -, hpath⟩
    rw [List.mem_singleton.mp hr] at hpath
    exact ReflTransGen.mono (fun _ _ hab => hab.1) _ _ hpath
  · intro hpath
    refine ⟨i, List.mem_singleton.mpr rfl, hopen hi, ?_⟩
    exact ReflTransGen.mono (fun a b hab => ⟨hab, hopen (hsucc a b hab)⟩) _ _ hpath

end AsmCheck.Graph
