import Mathlib.Data.List.Basic
import Mathlib.Data.List.Induction
import Mathlib.Data.List.Perm.Basic
import Mathlib.Order.Lattice

namespace Jellybean.RunningMax

variable {α β : Type*} [LinearOrder β] {key : α → Option β} {xs order : List α} {v w : β} {x y : α}

/-- The element with the greatest key so far; one without a key is passed over, and of two with the
same key the earlier one stays. -/
def keep (key : α → Option β) (best : Option (β × α)) (x : α) : Option (β × α) :=
  match key x, best with
  | none, _ => best
  | some v, none => some (v, x)
  | some v, some b => if b.1 < v then some (v, x) else some b

def firstMax (key : α → Option β) (xs : List α) : Option (β × α) := xs.foldl (keep key) none

/-- `x` has the key `v`, and no element a greater one. -/
structure Greatest (key : α → Option β) (xs : List α) (v : β) (x : α) : Prop where
  mem : x ∈ xs
  key_eq : key x = some v
  le : ∀ y ∈ xs, ∀ w, key y = some w → w ≤ v

theorem firstMax_concat (key : α → Option β) (xs : List α) (x : α) :
    firstMax key (xs ++ [x]) = keep key (firstMax key xs) x := by
  unfold firstMax
  rw [List.foldl_append]
  rfl

omit [LinearOrder β] in
theorem forall_concat {P : α → Prop} (h : ∀ y ∈ xs, P y) (hx : P x) : ∀ y ∈ xs ++ [x], P y := by
  intro y hy
  rcases List.mem_append.mp hy with hy | hy
  · exact h y hy
  · rw [List.mem_singleton.mp hy]
    exact hx

theorem Greatest.keep_old (h : Greatest key xs v x) (hy : ∀ w, key y = some w → w ≤ v) :
    Greatest key (xs ++ [y]) v x :=
  ⟨List.mem_append_left _ h.mem, h.key_eq, forall_concat h.le hy⟩

theorem firstMax_spec (key : α → Option β) (xs : List α) :
    (firstMax key xs = none ∧ ∀ x ∈ xs, key x = none) ∨
      ∃ v x, firstMax key xs = some (v, x) ∧ Greatest key xs v x := by
  induction xs using List.reverseRecOn with
  | nil => exact .inl ⟨rfl, by simp⟩
  | append_singleton xs x ih =>
    rw [firstMax_concat]
    cases hx : key x with
    | none =>
      rcases ih with ih | ih
      · obtain ⟨hnone, hall⟩ := ih
        refine .inl ⟨?_, forall_concat hall hx⟩
        rw [hnone]
        simp [keep, hx]
      · obtain ⟨v, y, hy, hg⟩ := ih
        refine .inr ⟨v, y, ?_, hg.keep_old (by simp [hx])⟩
        rw [hy]
        simp [keep, hx]
    | some w =>
      right
      rcases ih with ih | ih
      · obtain ⟨hnone, hall⟩ := ih
        refine ⟨w, x, ?_, by simp, hx, ?_⟩
        · rw [hnone]
          simp [keep, hx]
        · apply forall_concat
          · intro y hy u hu
            rw [hall y hy] at hu
            cases hu
          · intro u hu
            rw [hx] at hu
            exact (Option.some.inj hu).ge
      · obtain ⟨v, y, hy, hg⟩ := ih
        rw [hy]
        by_cases hlt : v < w
        · refine ⟨w, x, by simp [keep, hx, hlt], by simp, hx, ?_⟩
          apply forall_concat
          · intro z hz u hu
            exact (hg.le z hz u hu).trans hlt.le
          · intro u hu
            rw [hx] at hu
            exact (Option.some.inj hu).ge
        · refine ⟨v, y, by simp [keep, hx, hlt], hg.keep_old ?_⟩
          intro u hu
          rw [hx] at hu
          exact (Option.some.inj hu) ▸ not_lt.mp hlt

theorem foldl_keep_of_le (h : ∀ y ∈ xs, ∀ w, key y = some w → w ≤ v) :
    xs.foldl (keep key) (some (v, x)) = some (v, x) := by
  induction xs with
  | nil => rfl
  | cons y ys ih =>
    have hstay : keep key (some (v, x)) y = some (v, x) := by
      cases hy : key y with
      | none => simp [keep, hy]
      | some w => simp [keep, hy, not_lt.mpr (h y List.mem_cons_self w hy)]
    rw [List.foldl_cons, hstay]
    exact ih fun z hz => h z (List.mem_cons_of_mem y hz)

/-- An element with the greatest key is found where it comes first. -/
theorem Greatest.exists_order [DecidableEq α] (h : Greatest key xs v x) :
    ∃ order : List α, order.Perm xs ∧ firstMax key order = some (v, x) := by
  refine ⟨x :: xs.erase x, (List.perm_cons_erase h.mem).symm, ?_⟩
  have hfirst : keep key none x = some (v, x) := by simp [keep, h.key_eq]
  unfold firstMax
  rw [List.foldl_cons, hfirst]
  apply foldl_keep_of_le
  intro y hy
  exact h.le y (List.mem_of_mem_erase hy)

theorem Greatest.perm (h : Greatest key xs v x) (hp : order.Perm xs) : Greatest key order v x :=
  ⟨hp.mem_iff.mpr h.mem, h.key_eq, fun y hy => h.le y (hp.mem_iff.mp hy)⟩

theorem Greatest.key_unique (h : Greatest key xs v x) (h' : Greatest key xs w y) : v = w :=
  le_antisymm (h'.le x h.mem v h.key_eq) (h.le y h'.mem w h'.key_eq)

/-- Where only one element has the greatest key, it is found in every order. -/
theorem Greatest.firstMax_eq (h : Greatest key xs v x)
    (hone : ∀ y, Greatest key xs v y → y = x) (hp : order.Perm xs) :
    firstMax key order = some (v, x) := by
  rcases firstMax_spec key order with hs | hs
  · have hnone := hs.2 x (hp.mem_iff.mpr h.mem)
    rw [h.key_eq] at hnone
    cases hnone
  · obtain ⟨w, y, hy, hg⟩ := hs
    have hg' := hg.perm hp.symm
    obtain rfl := h.key_unique hg'
    rw [hy, hone y hg']

end Jellybean.RunningMax
