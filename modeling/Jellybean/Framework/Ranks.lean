import Mathlib.Data.List.Sort
import Mathlib.Tactic

namespace Jellybean

variable {α β : Type*}

/-- In a sorted list the entries with a downward closed property come first. -/
theorem lt_countP_iff [LinearOrder α] {p : α → Bool} (hp : ∀ a b, a ≤ b → p b → p a)
    (l : List α) (hl : l.Pairwise (· ≤ ·)) (j : Nat) (hj : j < l.length) :
    j < l.countP p ↔ p l[j] := by
  induction l generalizing j with
  | nil => simp at hj
  | cons a l ih =>
    obtain ⟨ha, hl⟩ := List.pairwise_cons.mp hl
    by_cases hpa : p a
    · rw [List.countP_cons_of_pos hpa]
      cases j with
      | zero => simp [hpa]
      | succ j =>
        have h := ih hl j (by simpa using hj)
        rw [List.getElem_cons_succ, ← h]
        omega
    · have hnone : ∀ b ∈ a :: l, ¬p b := by
        intro b hb hpb
        rcases List.mem_cons.mp hb with hba | hbl
        · exact hpa (hba ▸ hpb)
        · exact hpa (hp a b (ha b hbl) hpb)
      rw [List.countP_eq_zero.mpr hnone]
      have h := hnone _ (List.getElem_mem hj)
      simp [h]

/-- The `k`-th smallest entry of a list, counted from one. -/
def kthSmallest [LinearOrder α] [Inhabited α] (l : List α) (k : Nat) : α :=
  (l.insertionSort (· ≤ ·)).getD (k - 1) default

variable [LinearOrder α] [Inhabited α] [LinearOrder β] {l : List α} {k k' : Nat}

/-- The `k`-th smallest entry is below a bound when at least `k` entries are. -/
theorem le_countP_iff {f : α → β} (hf : Monotone f) (hk : 1 ≤ k) (hl : k ≤ l.length) (i : β) :
    k ≤ l.countP (fun a => f a ≤ i) ↔ f (kthSmallest l k) ≤ i := by
  have hlen : k - 1 < (l.insertionSort (· ≤ ·)).length := by
    rw [List.length_insertionSort]
    omega
  have hclosed : ∀ a b, a ≤ b → decide (f b ≤ i) → decide (f a ≤ i) := by
    intro a b hab hb
    simp only [decide_eq_true_eq] at hb ⊢
    exact (hf hab).trans hb
  have h := lt_countP_iff hclosed _ (List.pairwise_insertionSort (· ≤ ·) l) (k - 1) hlen
  rw [(List.perm_insertionSort (· ≤ ·) l).countP_eq, decide_eq_true_eq] at h
  unfold kthSmallest
  rw [List.getD_eq_getElem?_getD, List.getElem?_eq_getElem hlen, Option.getD_some, ← h]
  omega

theorem kthSmallest_mono (hk : 1 ≤ k) (h : k ≤ k') (hl : k' ≤ l.length) :
    kthSmallest l k ≤ kthSmallest l k' := by
  have hk' := (le_countP_iff monotone_id (hk.trans h) hl (kthSmallest l k')).mpr le_rfl
  exact (le_countP_iff monotone_id hk (h.trans hl) _).mp (h.trans hk')

end Jellybean
