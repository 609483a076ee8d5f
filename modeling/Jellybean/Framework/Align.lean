import Mathlib.Tactic

namespace Jellybean

/-- Clearing the low `k` bits of a word of `w` bits. -/
theorem and_not_mask {w k x : Nat} (hx : x < 2^w) (hk : k ≤ w) :
    x &&& (2^w - 1 - (2^k - 1)) = x / 2^k * 2^k := by
  have hle : 2^k ≤ 2^w := Nat.pow_le_pow_right (by omega) hk
  have hpos : 0 < 2^k := Nat.two_pow_pos k
  have hmask : 2^w - 1 - (2^k - 1) = 2^w - (2^k - 1 + 1) := by omega
  apply Nat.eq_of_testBit_eq
  intro i
  rw [Nat.testBit_and, hmask, Nat.testBit_two_pow_sub_succ (by omega),
    Nat.testBit_two_pow_sub_one, Nat.testBit_mul_two_pow, Nat.testBit_div_two_pow]
  by_cases hi : k ≤ i
  · have hik : i - k + k = i := by omega
    by_cases hw : i < w
    · simp [hi, hw, hik, Nat.not_lt.mpr hi]
    · have hx0 : x.testBit i = false :=
        Nat.testBit_lt_two_pow (hx.trans_le (Nat.pow_le_pow_right (by omega) (by omega)))
      simp [hik, hx0]
  · simp [hi, Nat.lt_of_not_le hi]

/-- Clearing bits and keeping only them split a word. -/
theorem and_not_add_and {w x m : Nat} (hx : x < 2^w) (hm : m < 2^w) :
    (x &&& (2^w - 1 - m)) + (x &&& m) = x := by
  have hdisjoint : (BitVec.ofNat w x &&& ~~~BitVec.ofNat w m) &&&
      (BitVec.ofNat w x &&& BitVec.ofNat w m) = 0#w := by
    apply BitVec.eq_of_getElem_eq
    intro i hi
    simp
    tauto
  have hall : (BitVec.ofNat w x &&& ~~~BitVec.ofNat w m) |||
      (BitVec.ofNat w x &&& BitVec.ofNat w m) = BitVec.ofNat w x := by
    apply BitVec.eq_of_getElem_eq
    intro i hi
    rw [BitVec.getElem_or, BitVec.getElem_and, BitVec.getElem_and, BitVec.getElem_not,
      ← Bool.and_or_distrib_left, Bool.not_or_self, Bool.and_true]
  have hsum := BitVec.toNat_add_of_and_eq_zero hdisjoint
  rw [BitVec.add_eq_or_of_and_eq_zero _ _ hdisjoint, hall] at hsum
  simpa [BitVec.toNat_and, BitVec.toNat_not, Nat.mod_eq_of_lt hx, Nat.mod_eq_of_lt hm] using
    hsum.symm

/-- Rounding up to a multiple of `a`. -/
def roundUp (x a : Nat) : Nat := (x + a - 1) / a * a

theorem dvd_roundUp (x a : Nat) : a ∣ roundUp x a := Dvd.intro_left _ rfl

theorem le_roundUp {x a : Nat} (ha : 0 < a) : x ≤ roundUp x a := by
  have h := Nat.div_add_mod (x + a - 1) a
  have hlt := Nat.mod_lt (x + a - 1) ha
  rw [Nat.mul_comm] at h
  unfold roundUp
  omega

theorem roundUp_lt {x a : Nat} (ha : 0 < a) : roundUp x a < x + a := by
  have h := Nat.div_mul_le_self (x + a - 1) a
  unfold roundUp
  omega

/-- A range of addresses. -/
structure Region where
  base : Nat
  size : Nat
  deriving DecidableEq

namespace Region

variable {r r' s s' : Region}

def Disjoint (r s : Region) : Prop := r.base + r.size ≤ s.base ∨ s.base + s.size ≤ r.base

def Within (r s : Region) : Prop := s.base ≤ r.base ∧ r.base + r.size ≤ s.base + s.size

instance (r s : Region) : Decidable (r.Disjoint s) := inferInstanceAs (Decidable (_ ∨ _))

theorem Disjoint.symm (h : r.Disjoint s) : s.Disjoint r := Or.symm h

theorem Within.trans (h : r.Within s) (h' : s.Within s') : r.Within s' :=
  ⟨h'.1.trans h.1, h.2.trans h'.2⟩

theorem Disjoint.mono (h : r.Disjoint s) (hr : r'.Within r) (hs : s'.Within s) :
    r'.Disjoint s' := by
  unfold Disjoint Within at *
  omega

end Region

/-- Regions that do not overlap have room in the address space together. -/
theorem sum_sizes_le {N : Nat} {rs : List Region} (hd : rs.Pairwise Region.Disjoint)
    (hb : ∀ r ∈ rs, r.base + r.size ≤ N) : (rs.map Region.size).sum ≤ N := by
  -- the addresses covered by the regions
  let cover (rs : List Region) : Finset Nat :=
    (Finset.range N).filter fun x => ∃ r ∈ rs, r.base ≤ x ∧ x < r.base + r.size
  have hcard : (rs.map Region.size).sum = (cover rs).card := by
    induction rs with
    | nil => simp [cover]
    | cons r rs ih =>
      obtain ⟨hr, hrs⟩ := List.pairwise_cons.mp hd
      have hrb := hb r (by simp)
      have hunion : cover (r :: rs) = Finset.Ico r.base (r.base + r.size) ∪ cover rs := by
        ext x
        simp only [cover, Finset.mem_filter, Finset.mem_range, List.mem_cons, exists_eq_or_imp,
          Finset.mem_union, Finset.mem_Ico]
        constructor
        · rintro ⟨hx, hxr | hxs⟩
          · exact .inl hxr
          · exact .inr ⟨hx, hxs⟩
        · rintro (hxr | ⟨hx, hxs⟩)
          · exact ⟨by omega, .inl hxr⟩
          · exact ⟨hx, .inr hxs⟩
      have hdis : Disjoint (Finset.Ico r.base (r.base + r.size)) (cover rs) := by
        rw [Finset.disjoint_left]
        intro x hx hxc
        simp only [cover, Finset.mem_filter, Finset.mem_Ico] at hx hxc
        obtain ⟨-, s, hs, hxs⟩ := hxc
        rcases hr s hs with hlt | hlt <;> omega
      rw [hunion, Finset.card_union_of_disjoint hdis, List.map_cons, List.sum_cons,
        ih hrs fun s hs => hb s (by simp [hs]), Nat.card_Ico]
      omega
  rw [hcard]
  exact (Finset.card_filter_le _ _).trans (by simp)

end Jellybean
