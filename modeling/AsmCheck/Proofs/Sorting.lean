import Mathlib.Data.List.Sort

/-! # Sorted lists without repetitions

    Lists that are shown are sorted and rid of neighbours that are equal.  Two
    facts about that: what comes out of an increasing list increases strictly
    (`pairwise_eraseReps`), and what is kept of some kind does not depend on
    what else is in the list, provided that elements of equal rank are of the
    same kind (`filter_sorted`). -/

namespace AsmCheck.Sorting

variable {α : Type} [DecidableEq α] {a b : α} {l : List α}

/-! ## Repetitions -/

private theorem loop_eq (a : α) (l acc : List α) :
    List.eraseRepsBy.loop (· == ·) a l acc =
      acc.reverse ++ List.eraseRepsBy.loop (· == ·) a l [] := by
  induction l generalizing a acc with
  | nil => rw [List.eraseRepsBy.loop, List.eraseRepsBy.loop, List.reverse_cons]; rfl
  | cons b l ih =>
      rw [List.eraseRepsBy.loop, List.eraseRepsBy.loop]
      cases a == b with
      | true => exact ih a acc
      | false =>
          show List.eraseRepsBy.loop _ b l (a :: acc) = _ ++ List.eraseRepsBy.loop _ b l [a]
          rw [ih b (a :: acc), ih b [a], List.reverse_cons, List.append_assoc]
          rfl

theorem eraseReps_cons_self (a : α) (l : List α) :
    (a :: a :: l).eraseReps = (a :: l).eraseReps := by
  show List.eraseRepsBy.loop _ a (a :: l) [] = List.eraseRepsBy.loop _ a l []
  rw [List.eraseRepsBy.loop, beq_self_eq_true]

theorem eraseReps_cons_of_ne (h : a ≠ b) (l : List α) :
    (a :: b :: l).eraseReps = a :: (b :: l).eraseReps := by
  show List.eraseRepsBy.loop _ a (b :: l) [] = a :: List.eraseRepsBy.loop _ b l []
  rw [List.eraseRepsBy.loop, beq_false_of_ne h]
  exact loop_eq b l [a]

theorem eraseReps_singleton (a : α) : [a].eraseReps = [a] := rfl

theorem mem_eraseReps : ∀ {l : List α}, b ∈ l.eraseReps ↔ b ∈ l
  | [] => Iff.rfl
  | [_] => Iff.rfl
  | a :: c :: l => by
      by_cases hac : a = c
      · subst hac
        rw [eraseReps_cons_self, mem_eraseReps, List.mem_cons (a := b) (b := a) (l := a :: l)]
        exact ⟨Or.inr, fun h => h.elim (fun hb => hb ▸ List.mem_cons_self ..) id⟩
      · rw [eraseReps_cons_of_ne hac, List.mem_cons, mem_eraseReps, ← List.mem_cons]

theorem eraseReps_map {β : Type} [DecidableEq β] {f : α → β} (hf : Function.Injective f) :
    ∀ l : List α, (l.map f).eraseReps = l.eraseReps.map f
  | [] => rfl
  | [_] => rfl
  | a :: b :: l => by
      have ih := eraseReps_map hf (b :: l)
      by_cases hab : a = b
      · subst hab
        rw [eraseReps_cons_self, ← ih]
        exact eraseReps_cons_self ..
      · rw [eraseReps_cons_of_ne hab]
        show (f a :: f b :: l.map f).eraseReps = f a :: (b :: l).eraseReps.map f
        rw [← ih]
        exact eraseReps_cons_of_ne (hf.ne hab) _

/-- Elements of a kind that stand in the list once each are all kept. -/
theorem filter_eraseReps_of_nodup {P : α → Bool} : ∀ {l : List α}, (l.filter P).Nodup →
    l.eraseReps.filter P = l.filter P
  | [], _ => rfl
  | [_], _ => rfl
  | a :: b :: l, h => by
      have hsub := (List.sublist_cons_self a (b :: l)).filter P
      have ih := filter_eraseReps_of_nodup (h.sublist hsub)
      by_cases hab : a = b
      · subst hab
        cases ha : P a with
        | true =>
            rw [List.filter_cons_of_pos ha, List.filter_cons_of_pos ha] at h
            exact absurd (List.mem_cons_self ..) (List.nodup_cons.mp h).1
        | false =>
            rw [eraseReps_cons_self, ih, List.filter_cons_of_neg (l := a :: l)
              (ne_true_of_eq_false ha)]
      · rw [eraseReps_cons_of_ne hab, List.filter_cons, ih, List.filter_cons (x := a)]

/-- Where nothing stands twice there is nothing to drop. -/
theorem eraseReps_of_nodup (h : l.Nodup) : l.eraseReps = l := by
  have hall := filter_eraseReps_of_nodup (P := fun _ => true) (l := l) (by rwa [List.filter_true])
  rwa [List.filter_true, List.filter_true] at hall

/-- Without repetitions, an increasing list is strictly increasing. -/
theorem pairwise_eraseReps {R : α → α → Prop} (hanti : ∀ {a b}, R a b → R b a → a = b) :
    ∀ {l : List α}, l.Pairwise R → l.eraseReps.Pairwise fun a b => R a b ∧ a ≠ b
  | [], _ => List.Pairwise.nil
  | [a], _ => List.pairwise_singleton _ a
  | a :: b :: l, h => by
      obtain ⟨hfirst, hrest⟩ := List.pairwise_cons.mp h
      by_cases hab : a = b
      · subst hab
        rw [eraseReps_cons_self]
        exact pairwise_eraseReps hanti hrest
      · rw [eraseReps_cons_of_ne hab, List.pairwise_cons]
        refine ⟨fun c hc => ?_, pairwise_eraseReps hanti hrest⟩
        have hmem := mem_eraseReps.mp hc
        refine ⟨hfirst c hmem, fun hac => hab ?_⟩
        -- `b` stands between `a` and `c`
        subst hac
        rcases List.mem_cons.mp hmem with heq | hlater
        · exact heq
        · exact hanti (hfirst b (List.mem_cons_self ..)) ((List.pairwise_cons.mp hrest).1 a hlater)

/-! ## Kinds of elements -/

variable {le : α → α → Bool} {P : α → Bool}

/-- In a sorted list, what stands between two equal elements is of their kind, so that repetitions
    can be dropped before or after the elements of one kind are picked. -/
theorem filter_eraseReps (hkind : ∀ a b, le a b = true → le b a = true → P a = P b) :
    ∀ {l : List α}, l.Pairwise (fun a b => le a b = true) →
      l.eraseReps.filter P = (l.filter P).eraseReps
  | [], _ => rfl
  | [a], _ => by
      rw [eraseReps_singleton]
      cases ha : P a with
      | true => rw [List.filter_cons_of_pos ha]; rfl
      | false => rw [List.filter_cons_of_neg (ne_true_of_eq_false ha)]; rfl
  | a :: b :: l, h => by
      obtain ⟨hfirst, hrest⟩ := List.pairwise_cons.mp h
      have ih := filter_eraseReps hkind hrest
      by_cases hab : a = b
      · subst hab
        rw [eraseReps_cons_self, ih]
        cases ha : P a with
        | true =>
            rw [List.filter_cons_of_pos ha, List.filter_cons_of_pos ha, List.filter_cons_of_pos ha,
              eraseReps_cons_self]
        | false => rw [List.filter_cons_of_neg (l := a :: l) (ne_true_of_eq_false ha)]
      · rw [eraseReps_cons_of_ne hab]
        cases ha : P a with
        | false =>
            rw [List.filter_cons_of_neg (ne_true_of_eq_false ha),
              List.filter_cons_of_neg (ne_true_of_eq_false ha), ih]
        | true =>
            rw [List.filter_cons_of_pos ha, List.filter_cons_of_pos ha, ih]
            -- the next element of the kind is another one
            cases hnext : (b :: l).filter P with
            | nil => rfl
            | cons c m =>
                refine (eraseReps_cons_of_ne (fun hac => ?_) m).symm
                subst hac
                have hmem : a ∈ b :: l := (List.mem_filter.mp (hnext ▸ List.mem_cons_self ..)).1
                rcases List.mem_cons.mp hmem with heq | hlater
                · exact hab heq
                · have hkinds := hkind a b (hfirst b (List.mem_cons_self ..))
                    ((List.pairwise_cons.mp hrest).1 a hlater)
                  rw [List.filter_cons_of_pos (hkinds ▸ ha)] at hnext
                  exact hab (List.cons.inj hnext).1.symm

section Stable

variable (htrans : ∀ a b c, le a b = true → le b c = true → le a c = true)
  (htotal : ∀ a b, (le a b || le b a) = true)

include htrans htotal

omit [DecidableEq α] in
/-- A new first element goes in front of what does not have to stand before it. -/
theorem mergeSort_cons_eq (a : α) (l : List α) :
    (a :: l).mergeSort le =
      (l.mergeSort le).filter (fun b => !le a b) ++ a :: (l.mergeSort le).filter (le a) := by
  obtain ⟨before, after, hsort, hrest, hbefore⟩ := List.mergeSort_cons htrans htotal a l
  have hsorted := List.pairwise_mergeSort htrans htotal (a :: l)
  rw [hsort] at hsorted
  have hafter : ∀ b ∈ after, le a b = true :=
    (List.pairwise_cons.mp (List.pairwise_append.mp hsorted).2.1).1
  have hbefore' : ∀ b ∈ before, ¬ le a b = true := fun b hb hle => by
    have := hbefore b hb
    rw [hle] at this
    cases this
  have hafter' : ∀ b ∈ after, ¬ (!le a b) = true := fun b hb hle => by
    rw [hafter b hb] at hle
    cases hle
  rw [hsort, hrest, List.filter_append, List.filter_append, List.filter_eq_self.mpr hbefore,
    List.filter_eq_nil_iff.mpr hafter', List.filter_eq_nil_iff.mpr hbefore',
    List.filter_eq_self.mpr hafter, List.append_nil, List.nil_append]

omit [DecidableEq α] in
/-- Elements of one kind can be picked before or after sorting. -/
theorem filter_mergeSort (l : List α) :
    (l.mergeSort le).filter P = (l.filter P).mergeSort le := by
  induction l with
  | nil => rw [List.filter_nil, List.mergeSort_nil, List.filter_nil]
  | cons a l ih =>
      cases ha : P a with
      | false =>
          obtain ⟨before, after, hsort, hrest, -⟩ := List.mergeSort_cons htrans htotal a l
          rw [List.filter_cons_of_neg (ne_true_of_eq_false ha), ← ih, hsort, hrest,
            List.filter_append, List.filter_append,
            List.filter_cons_of_neg (ne_true_of_eq_false ha)]
      | true =>
          rw [List.filter_cons_of_pos ha, mergeSort_cons_eq htrans htotal,
            mergeSort_cons_eq htrans htotal, ← ih, List.filter_append, List.filter_cons_of_pos ha,
            List.filter_comm P, List.filter_comm P]

/-- The elements of one kind in a list that is sorted and rid of repetitions depend on nothing but
    the elements of that kind. -/
theorem filter_sorted (hkind : ∀ a b, le a b = true → le b a = true → P a = P b) (l : List α) :
    (l.mergeSort le).eraseReps.filter P = ((l.filter P).mergeSort le).eraseReps := by
  rw [filter_eraseReps hkind (List.pairwise_mergeSort htrans htotal l),
    filter_mergeSort htrans htotal]

end Stable

end AsmCheck.Sorting
