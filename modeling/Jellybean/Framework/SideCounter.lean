import Mathlib.Algebra.Group.Int.Defs
import Mathlib.Data.Finset.Card
import Mathlib.Data.Int.Cast.Lemmas
import Mathlib.Tactic

namespace Jellybean

variable {ι κ G : Type*} [AddCommGroupWithOne G]

/-- A counter kept beside a container and moved in steps of its own: it lacks the items of those
who have put one in and not counted it yet, and still has those that were taken out and not counted
off. `held` is the number of items in the container; the counter may wrap. -/
def SideCounter (putting : ι → Prop) (taking : κ → Prop) (counter : G) (held : ℤ) : Prop :=
  ∃ P : Finset ι, ∃ W : Finset κ, (∀ i, i ∈ P ↔ putting i) ∧ (∀ k, k ∈ W ↔ taking k) ∧
    counter = held - P.card + W.card

namespace SideCounter

variable {putting putting' : ι → Prop} {taking taking' : κ → Prop} {counter : G} {held : ℤ}

theorem start (hp : ∀ i, ¬putting i) (ht : ∀ k, ¬taking k) : SideCounter putting taking (0 : G) 0 := by
  refine ⟨∅, ∅, ?_, ?_, ?_⟩
  · intro i
    simp [hp i]
  · intro k
    simp [ht k]
  · simp

theorem congr (h : SideCounter putting taking counter held) (hp : ∀ i, putting' i ↔ putting i)
    (ht : ∀ k, taking' k ↔ taking k) : SideCounter putting' taking' counter held := by
  obtain ⟨P, W, hP, hW, hc⟩ := h
  exact ⟨P, W, fun i => (hP i).trans (hp i).symm, fun k => (hW k).trans (ht k).symm, hc⟩

/-- An item goes in. -/
theorem put (h : SideCounter putting taking counter held) {i : ι} (hi : ¬putting i)
    (hp : ∀ j, putting' j ↔ j = i ∨ putting j) :
    SideCounter putting' taking counter (held + 1) := by
  classical
  obtain ⟨P, W, hP, hW, hc⟩ := h
  have hiP : i ∉ P := fun hm => hi ((hP i).mp hm)
  refine ⟨insert i P, W, ?_, hW, ?_⟩
  · intro j
    rw [Finset.mem_insert, hP, hp]
  · rw [hc, Finset.card_insert_of_notMem hiP]
    push_cast
    abel

/-- It is counted. -/
theorem add (h : SideCounter putting taking counter held) {i : ι} (hi : putting i)
    (hp : ∀ j, putting' j ↔ j ≠ i ∧ putting j) :
    SideCounter putting' taking (counter + 1) held := by
  classical
  obtain ⟨P, W, hP, hW, hc⟩ := h
  refine ⟨P.erase i, W, ?_, hW, ?_⟩
  · intro j
    rw [Finset.mem_erase, hP, hp]
  · rw [hc, ← Finset.card_erase_add_one ((hP i).mpr hi)]
    push_cast
    abel

/-- An item comes out. -/
theorem take (h : SideCounter putting taking counter held) {k : κ} (hk : ¬taking k)
    (ht : ∀ j, taking' j ↔ j = k ∨ taking j) :
    SideCounter putting taking' counter (held - 1) := by
  classical
  obtain ⟨P, W, hP, hW, hc⟩ := h
  have hkW : k ∉ W := fun hm => hk ((hW k).mp hm)
  refine ⟨P, insert k W, hP, ?_, ?_⟩
  · intro j
    rw [Finset.mem_insert, hW, ht]
  · rw [hc, Finset.card_insert_of_notMem hkW]
    push_cast
    abel

/-- It is counted off. -/
theorem subtract (h : SideCounter putting taking counter held) {k : κ} (hk : taking k)
    (ht : ∀ j, taking' j ↔ j ≠ k ∧ taking j) :
    SideCounter putting taking' (counter - 1) held := by
  classical
  obtain ⟨P, W, hP, hW, hc⟩ := h
  refine ⟨P, W.erase k, hP, ?_, ?_⟩
  · intro j
    rw [Finset.mem_erase, hW, ht]
  · rw [hc, ← Finset.card_erase_add_one ((hW k).mpr hk)]
    push_cast
    abel

/-- With nobody in between the counter is the number of items. -/
theorem eq_held (h : SideCounter putting taking counter held) (hp : ∀ i, ¬putting i)
    (ht : ∀ k, ¬taking k) : counter = held := by
  obtain ⟨P, W, hP, hW, hc⟩ := h
  have hP0 : P = ∅ := Finset.eq_empty_of_forall_notMem fun i hi => hp i ((hP i).mp hi)
  have hW0 : W = ∅ := Finset.eq_empty_of_forall_notMem fun k hk => ht k ((hW k).mp hk)
  rw [hc, hP0, hW0]
  simp

/-- An integer counter lacks no more than those who have not counted yet. -/
theorem neg_card_le {n : ℤ} (h : SideCounter putting taking n held) (hh : 0 ≤ held)
    {P : Finset ι} (hP : ∀ i, i ∈ P ↔ putting i) : -(P.card : ℤ) ≤ n := by
  obtain ⟨Q, W, hQ, hW, hc⟩ := h
  have he : P = Q := by
    ext i
    rw [hP, hQ]
  rw [Int.cast_id] at hc
  rw [he]
  omega

end SideCounter

end Jellybean
