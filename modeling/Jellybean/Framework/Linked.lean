import Mathlib.Data.List.Nodup
import Mathlib.Logic.Function.Basic
import Mathlib.Tactic

namespace Jellybean

variable {α : Type*} {next next' : α → Option α} {p : Option α} {l : List α}

/-- A singly linked list: following `next` from `p` gives `l` and then the null pointer. -/
def Linked (next : α → Option α) : Option α → List α → Prop
  | p, [] => p = none
  | p, x :: xs => p = some x ∧ Linked next (next x) xs

/-- Follows `next` over at most `n` nodes; `none` when the end is not reached. -/
def traverse (next : α → Option α) : Nat → Option α → Option (List α)
  | _, none => some []
  | 0, some _ => none
  | n + 1, some x => (traverse next n (next x)).map (x :: ·)

/-- Following `next` from `p` comes to `x`. -/
inductive OnList (next : α → Option α) : Option α → α → Prop
  | head (x : α) : OnList next (some x) x
  | tail {x y : α} : OnList next (next x) y → OnList next (some x) y

namespace Linked

theorem head_eq (h : Linked next p l) : p = l.head? := by
  cases l with
  | nil => exact h
  | cons x xs => exact h.1

theorem eq_nil (h : Linked next none l) : l = [] := by
  cases l with
  | nil => rfl
  | cons x xs => cases h.1

theorem unique {l' : List α} (h : Linked next p l) (h' : Linked next p l') : l = l' := by
  induction l generalizing p l' with
  | nil =>
    rw [show p = none from h] at h'
    exact h'.eq_nil.symm
  | cons x xs ih =>
    cases l' with
    | nil => cases h.1.symm.trans h'
    | cons y ys =>
      cases h.1.symm.trans h'.1
      rw [ih h.2 h'.2]

theorem suffix {l' : List α} (h : Linked next p l) (hs : l' <:+ l) : Linked next l'.head? l' := by
  induction l generalizing p with
  | nil =>
    rw [List.suffix_nil.mp hs]
    rfl
  | cons x xs ih =>
    rcases List.suffix_cons_iff.mp hs with rfl | hs
    · exact ⟨rfl, h.2⟩
    · exact ih h.2 hs

/-- A list that ends has no cycle: two suffixes that start at one node are the same. -/
theorem nodup (h : Linked next p l) : l.Nodup := by
  induction l generalizing p with
  | nil => exact List.nodup_nil
  | cons x xs ih =>
    apply List.nodup_cons.mpr
    refine ⟨?_, ih h.2⟩
    intro hx
    obtain ⟨as, bs, hxs⟩ := List.append_of_mem hx
    have hsuff : x :: bs <:+ x :: xs := ⟨x :: as, by rw [hxs, List.cons_append]⟩
    have htail : Linked next (some x) (x :: bs) := h.suffix hsuff
    have heq := htail.unique (show Linked next (some x) (x :: xs) from ⟨rfl, h.2⟩)
    have hlen := congrArg List.length heq
    rw [hxs] at hlen
    simp only [List.length_cons, List.length_append] at hlen
    omega

theorem congr (h : Linked next p l) (he : ∀ x ∈ l, next' x = next x) : Linked next' p l := by
  induction l generalizing p with
  | nil => exact h
  | cons x xs ih =>
    refine ⟨h.1, ?_⟩
    rw [he x (by simp)]
    exact ih h.2 fun y hy => he y (by simp [hy])

theorem onList_iff (h : Linked next p l) {x : α} : OnList next p x ↔ x ∈ l := by
  induction l generalizing p with
  | nil =>
    rw [show p = none from h]
    simp only [List.not_mem_nil, iff_false]
    intro hx
    cases hx
  | cons y ys ih =>
    rw [h.1, List.mem_cons, ← ih h.2]
    constructor
    · intro hx
      cases hx with
      | head => exact .inl rfl
      | tail hx => exact .inr hx
    · rintro (rfl | hx)
      · exact .head x
      · exact .tail hx

theorem push [DecidableEq α] {x : α} (h : Linked next p l) (hx : x ∉ l) :
    Linked (Function.update next x p) (some x) (x :: l) := by
  refine ⟨rfl, ?_⟩
  rw [Function.update_self]
  apply h.congr
  intro y hy
  rw [Function.update_of_ne]
  rintro rfl
  exact hx hy

/-- Redirecting the pointer of `x` drops what came after it. -/
theorem splice {x : α} {as bs cs : List α} (h : Linked next p (as ++ x :: bs))
    (ha : ∀ y ∈ as, next' y = next y) (hc : Linked next' (next' x) cs) :
    Linked next' p (as ++ x :: cs) := by
  induction as generalizing p with
  | nil => exact ⟨h.1, hc⟩
  | cons y ys ih =>
    refine ⟨h.1, ?_⟩
    rw [ha y (by simp)]
    exact ih h.2 fun z hz => ha z (by simp [hz])

theorem traverse_eq (h : Linked next p l) {n : Nat} (hn : l.length ≤ n) :
    traverse next n p = some l := by
  induction l generalizing p n with
  | nil =>
    rw [show p = none from h]
    cases n <;> rfl
  | cons x xs ih =>
    obtain ⟨m, rfl⟩ : ∃ m, n = m + 1 := ⟨n - 1, by simp only [List.length_cons] at hn; omega⟩
    rw [h.1, traverse, ih h.2 (by simpa using hn)]
    rfl

end Linked

theorem linked_of_traverse {n : Nat} (h : traverse next n p = some l) : Linked next p l := by
  induction n generalizing p l with
  | zero =>
    cases p with
    | none => cases h; rfl
    | some x => cases h
  | succ n ih =>
    cases p with
    | none => cases h; rfl
    | some x =>
      obtain ⟨xs, hxs, rfl⟩ := Option.map_eq_some_iff.mp h
      exact ⟨rfl, ih hxs⟩

end Jellybean
