/-! # Worklists

    A pass over the blocks of a program starts from one root after the other.
    It keeps the items that are still to be worked off from the present root;
    working off the first one changes what is known and brings up more items,
    which go in front of the others.  `Run` follows such a pass from moment to
    moment.  There is a run, of bounded length, if what is known can pay for
    the items that come up (`exists_run`), and what is known at the end of a
    run is what the pass computes (`Run.eq_foldl`). -/

namespace AsmCheck

/-- A moment of a pass. -/
structure Worklist (α ι : Type) where
  /-- What is known. -/
  known : α
  /-- What is to be worked off from the present root, the next item first. -/
  items : List ι
  /-- What the pass is still going to start from. -/
  roots : List ι

namespace Worklist

variable {α ι : Type} {work : α → ι → α × List ι}

/-- A pass from one moment on: every moment at which there is something left to do, and what is
    known when there is not. -/
inductive Run (work : α → ι → α × List ι) : Worklist α ι → List (Worklist α ι) → α → Prop
  /-- Nothing is left to do. -/
  | stop (a : α) : Run work ⟨a, [], []⟩ [] a
  /-- No item is left, and the next root is taken up. -/
  | root {a b : α} {i : ι} {roots : List ι} {moments : List (Worklist α ι)}
      (rest : Run work ⟨a, [i], roots⟩ moments b) :
      Run work ⟨a, [], i :: roots⟩ (⟨a, [], i :: roots⟩ :: moments) b
  /-- The first item is worked off. -/
  | item {a b : α} {i : ι} {items roots : List ι} {moments : List (Worklist α ι)}
      (rest : Run work ⟨(work a i).1, (work a i).2 ++ items, roots⟩ moments b) :
      Run work ⟨a, i :: items, roots⟩ (⟨a, i :: items, roots⟩ :: moments) b

/-- What the steps of a pass preserve. -/
structure Invariant (work : α → ι → α × List ι) (Inv : Worklist α ι → Prop) : Prop where
  root : ∀ {a i roots}, Inv ⟨a, [], i :: roots⟩ → Inv ⟨a, [i], roots⟩
  item : ∀ {a i items roots}, Inv ⟨a, i :: items, roots⟩ →
    Inv ⟨(work a i).1, (work a i).2 ++ items, roots⟩

variable {Inv : Worklist α ι → Prop} {w m : Worklist α ι} {moments before after : List (Worklist α ι)}
  {b : α}

namespace Run

/-- What the steps preserve holds at every moment and at the end. -/
theorem invariant (h : Run work w moments b) (hInv : Invariant work Inv) (hw : Inv w) :
    (∀ m ∈ moments, Inv m) ∧ Inv ⟨b, [], []⟩ := by
  induction h with
  | stop a => exact ⟨fun m hm => absurd hm List.not_mem_nil, hw⟩
  | root _ ih =>
      obtain ⟨hmoments, hend⟩ := ih (hInv.root hw)
      exact ⟨List.forall_mem_cons.mpr ⟨hw, hmoments⟩, hend⟩
  | item _ ih =>
      obtain ⟨hmoments, hend⟩ := ih (hInv.item hw)
      exact ⟨List.forall_mem_cons.mpr ⟨hw, hmoments⟩, hend⟩

/-- A run goes on from each of its moments. -/
theorem from_moment (h : Run work w (before ++ m :: after) b) : Run work m (m :: after) b := by
  induction before generalizing w with
  | nil => cases h with
    | root rest => exact .root rest
    | item rest => exact .item rest
  | cons m' before ih => cases h with
    | root rest => exact ih rest
    | item rest => exact ih rest

/-- A run ends with what the pass computes, root by root. -/
theorem eq_foldl {solve : α → List ι → α} (hstop : ∀ a, solve a [] = a)
    (hitem : ∀ a i items, solve a (i :: items) = solve (work a i).1 ((work a i).2 ++ items))
    (h : Run work w moments b) :
    b = w.roots.foldl (fun a i => solve a [i]) (solve w.known w.items) := by
  induction h with
  | stop a => exact (hstop a).symm
  | @root a _ i _ _ _ ih =>
      show _ = List.foldl _ (solve (solve a []) [i]) _
      rw [hstop]
      exact ih
  | item _ ih =>
      dsimp only at ih ⊢
      rw [hitem]
      exact ih

end Run

/-- If what is known pays for the items that come up, the pass ends.  Every root counts twice: it is
    taken up and worked off. -/
theorem exists_run (hInv : Invariant work Inv) (cost : α → Nat)
    (hcost : ∀ {a i items roots}, Inv ⟨a, i :: items, roots⟩ →
      cost (work a i).1 + (work a i).2.length ≤ cost a) {w : Worklist α ι} (hw : Inv w) :
    ∃ moments b, Run work w moments b ∧
      moments.length ≤ cost w.known + w.items.length + 2 * w.roots.length := by
  -- the bound is itself what gets smaller with every step
  induction hn : cost w.known + w.items.length + 2 * w.roots.length using Nat.strongRecOn
    generalizing w with
  | ind n ih =>
      obtain ⟨a, items, roots⟩ := w
      cases items with
      | nil =>
          cases roots with
          | nil => exact ⟨[], a, .stop a, Nat.zero_le n⟩
          | cons i roots =>
              dsimp only [List.length_cons, List.length_nil] at hn
              obtain ⟨moments, b, hrun, hlength⟩ := ih (cost a + 1 + 2 * roots.length) (by omega)
                (hInv.root hw) rfl
              refine ⟨_, b, .root hrun, ?_⟩
              rw [List.length_cons]
              omega
      | cons i items =>
          have hpaid := hcost hw
          dsimp only [List.length_cons] at hn
          obtain ⟨moments, b, hrun, hlength⟩ := ih
            (cost (work a i).1 + ((work a i).2 ++ items).length + 2 * roots.length)
            (by rw [List.length_append]; omega) (hInv.item hw) rfl
          refine ⟨_, b, .item hrun, ?_⟩
          rw [List.length_append] at hlength
          rw [List.length_cons]
          omega

end Worklist

end AsmCheck
