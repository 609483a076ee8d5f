import Mathlib.RingTheory.AdjoinRoot
import Mathlib.Tactic

namespace Jellybean.Crc

open Polynomial

variable {w n m : ℕ}

noncomputable section

/-- `w` bits as a polynomial, bit `0` being the coefficient of the highest power. -/
def reflectedBits (w : ℕ) (f : ℕ → Bool) : (ZMod 2)[X] :=
  ∑ i ∈ Finset.range w, if f i then X ^ (w - 1 - i) else 0

/-- A word read from its least significant bit on. -/
def reflected (x : BitVec w) : (ZMod 2)[X] := reflectedBits w x.getLsbD

/-- Bit `i` of a word as the coefficient of `X ^ i`. -/
def coefficients (x : BitVec w) : (ZMod 2)[X] :=
  ∑ i ∈ Finset.range w, if x.getLsbD i then X ^ i else 0

theorem reflectedBits_congr {f g : ℕ → Bool} (h : ∀ i < w, f i = g i) :
    reflectedBits w f = reflectedBits w g := by
  apply Finset.sum_congr rfl
  intro i hi
  rw [h i (Finset.mem_range.mp hi)]

theorem reflectedBits_eq_zero {f : ℕ → Bool} (h : ∀ i < w, f i = false) :
    reflectedBits w f = 0 := by
  apply Finset.sum_eq_zero
  intro i hi
  simp [h i (Finset.mem_range.mp hi)]

theorem reflectedBits_one (f : ℕ → Bool) : reflectedBits 1 f = if f 0 then 1 else 0 := by
  rw [reflectedBits, Finset.sum_range_one, pow_zero]

/-- The low bits hold the high powers. -/
theorem reflectedBits_split (h : n + m = w) (f : ℕ → Bool) :
    reflectedBits w f = reflectedBits n (fun i => f (m + i)) + X ^ n * reflectedBits m f := by
  have hlow : ∑ i ∈ Finset.range m, (if f i then (X : (ZMod 2)[X]) ^ (m + n - 1 - i) else 0) =
      X ^ n * reflectedBits m f := by
    unfold reflectedBits
    rw [Finset.mul_sum]
    apply Finset.sum_congr rfl
    intro i hi
    have hi := Finset.mem_range.mp hi
    rw [mul_ite, mul_zero, ← pow_add, show n + (m - 1 - i) = m + n - 1 - i by omega]
  have hhigh : ∑ i ∈ Finset.range n,
      (if f (m + i) then (X : (ZMod 2)[X]) ^ (m + n - 1 - (m + i)) else 0) =
        reflectedBits n (fun i => f (m + i)) := by
    apply Finset.sum_congr rfl
    intro i _
    rw [show m + n - 1 - (m + i) = n - 1 - i by omega]
  rw [← h, add_comm n m, reflectedBits, Finset.sum_range_add, hlow, hhigh, add_comm]

theorem reflected_xor (x y : BitVec w) : reflected (x ^^^ y) = reflected x + reflected y := by
  unfold reflected reflectedBits
  rw [← Finset.sum_add_distrib]
  apply Finset.sum_congr rfl
  intro i _
  rw [BitVec.getLsbD_xor]
  cases x.getLsbD i <;> cases y.getLsbD i <;> simp [CharTwo.add_self_eq_zero]

theorem coeff_reflectedBits (f : ℕ → Bool) {i : ℕ} (hi : i < w) :
    (reflectedBits w f).coeff (w - 1 - i) = if f i then 1 else 0 := by
  unfold reflectedBits
  rw [finsetSum_coeff, Finset.sum_eq_single i]
  · split <;> simp
  · intro j hj hne
    have hj := Finset.mem_range.mp hj
    split
    · rw [coeff_X_pow, if_neg (by omega)]
    · simp
  · intro h
    exact absurd (Finset.mem_range.mpr hi) h

theorem reflectedBits_inj {f g : ℕ → Bool} (h : reflectedBits w f = reflectedBits w g) :
    ∀ i < w, f i = g i := by
  intro i hi
  have hf := coeff_reflectedBits f hi
  rw [h, coeff_reflectedBits g hi] at hf
  cases hb : f i <;> cases hc : g i <;> simp_all

theorem reflected_injective : Function.Injective (reflected (w := w)) := by
  intro x y h
  apply BitVec.eq_of_getLsbD_eq
  exact reflectedBits_inj h

theorem degree_reflectedBits_lt (f : ℕ → Bool) : (reflectedBits w f).degree < w := by
  rw [degree_lt_iff_coeff_zero]
  intro k hk
  unfold reflectedBits
  rw [finsetSum_coeff]
  apply Finset.sum_eq_zero
  intro i hi
  have hi := Finset.mem_range.mp hi
  split
  · rw [coeff_X_pow, if_neg (by omega)]
  · simp

theorem degree_reflected_lt (x : BitVec w) : (reflected x).degree < w :=
  degree_reflectedBits_lt x.getLsbD

/-- The bits shifted out of a word are the overflow of the product with `X ^ m`. -/
theorem X_pow_mul_reflected (h : n + m = w) (x : BitVec w) :
    X ^ m * reflected x = reflected (x >>> m) + X ^ w * reflectedBits m x.getLsbD := by
  have hs : reflected (x >>> m) = X ^ m * reflectedBits n (fun i => x.getLsbD (m + i)) := by
    rw [reflected, reflectedBits_split ((add_comm m n).trans h), reflectedBits_eq_zero, zero_add]
    · congr 1
      apply reflectedBits_congr
      intro i _
      rw [BitVec.getLsbD_ushiftRight]
    · intro i _
      rw [BitVec.getLsbD_ushiftRight]
      exact BitVec.getLsbD_of_ge x _ (by omega)
  have hw : (X : (ZMod 2)[X]) ^ w = X ^ n * X ^ m := by rw [← pow_add, h]
  rw [hs, hw, reflected, reflectedBits_split h]
  ring

theorem reflected_setWidth (h : n + m = w) (y : BitVec m) :
    reflected (y.setWidth w) = X ^ n * reflected y := by
  rw [reflected, reflectedBits_split h, reflectedBits_eq_zero, zero_add, reflected]
  · congr 1
    apply reflectedBits_congr
    intro i hi
    simp [show i < w by omega]
  · intro i _
    rw [BitVec.getLsbD_setWidth, BitVec.getLsbD_of_ge y _ (by omega), Bool.and_false]

/-- The generator of which `p` is the reflection, without its leading power. -/
def generator (p : BitVec w) : (ZMod 2)[X] := X ^ w + reflected p

theorem generator_monic (p : BitVec w) : (generator p).Monic := by
  apply monic_X_pow_add
  exact degree_reflected_lt p

theorem degree_generator (p : BitVec w) : (generator p).degree = w := by
  unfold generator
  rw [degree_add_eq_left_of_degree_lt, degree_X_pow]
  rw [degree_X_pow]
  exact degree_reflected_lt p

/-- The register as a residue. -/
def residue (p x : BitVec w) : AdjoinRoot (generator p) :=
  AdjoinRoot.mk (generator p) (reflected x)

variable {p : BitVec w}

theorem residue_xor (x y : BitVec w) : residue p (x ^^^ y) = residue p x + residue p y := by
  unfold residue
  rw [reflected_xor, map_add]

theorem residue_eq_iff (x : BitVec w) (f : (ZMod 2)[X]) :
    residue p x = AdjoinRoot.mk (generator p) f ↔ reflected x = f %ₘ generator p := by
  have hx : reflected x %ₘ generator p = reflected x := by
    rw [modByMonic_eq_self_iff (generator_monic p), degree_generator]
    exact degree_reflected_lt x
  unfold residue
  rw [AdjoinRoot.mk_eq_mk, ← modByMonic_eq_zero_iff_dvd (generator_monic p), sub_modByMonic, hx,
    sub_eq_zero]

theorem residue_injective : Function.Injective (residue p) := by
  intro x y h
  apply reflected_injective
  rw [(residue_eq_iff x _).mp h, ← (residue_eq_iff y _).mp rfl]

theorem mk_X_pow_width : AdjoinRoot.mk (generator p) (X ^ w) = residue p p := by
  have h : AdjoinRoot.mk (generator p) (X ^ w + reflected p) = 0 := AdjoinRoot.mk_self
  rw [map_add] at h
  have h2 : residue p p + residue p p = 0 := by
    rw [← residue_xor, BitVec.xor_self, residue]
    simp [reflected, reflectedBits]
  exact add_right_cancel (h.trans h2.symm)

/-- One bit of the register goes out: `if (crc & 1) crc = (crc >> 1) ^ p else crc >>= 1`. -/
def bitStep (p c : BitVec w) : BitVec w := if c.getLsbD 0 then (c >>> 1) ^^^ p else c >>> 1

theorem residue_bitStep (h : n + 1 = w) (c : BitVec w) :
    residue p (bitStep p c) = AdjoinRoot.mk (generator p) X * residue p c := by
  have hx := congrArg (AdjoinRoot.mk (generator p)) (X_pow_mul_reflected h c)
  rw [pow_one, map_mul, map_add, map_mul, mk_X_pow_width] at hx
  show _ = _ * AdjoinRoot.mk (generator p) (reflected c)
  rw [hx, reflectedBits_one, bitStep]
  split
  · rw [residue_xor, map_one, mul_one, residue]
  · rw [map_zero, mul_zero, add_zero, residue]

/-! A generator with constant term: shifting loses nothing. -/

theorem isUnit_mk_X {R : Type*} [CommRing R] {g : R[X]} (h : g.coeff 0 = 1) :
    IsUnit (AdjoinRoot.mk g X) := by
  have hg : AdjoinRoot.mk g X * AdjoinRoot.mk g g.divX + 1 = 0 := by
    have h0 : AdjoinRoot.mk g (X * g.divX + C (g.coeff 0)) = 0 := by
      rw [X_mul_divX_add]
      exact AdjoinRoot.mk_self
    rwa [map_add, map_mul, h, map_one, map_one] at h0
  apply IsUnit.of_mul_eq_one (-AdjoinRoot.mk g g.divX)
  linear_combination -hg

theorem coeff_zero_generator (h : n + 1 = w) (hp : p.getLsbD n = true) :
    (generator p).coeff 0 = 1 := by
  have hbit := coeff_reflectedBits (w := w) p.getLsbD (i := n) (by omega)
  rw [show w - 1 - n = 0 by omega, hp, if_pos rfl] at hbit
  rw [generator, coeff_add, coeff_X_pow, if_neg (by omega), zero_add]
  exact hbit

/-- Short messages are their own remainders. -/
theorem mk_reflectedBits_inj (hm : m ≤ w) {f g : ℕ → Bool}
    (h : AdjoinRoot.mk (generator p) (reflectedBits m f) =
      AdjoinRoot.mk (generator p) (reflectedBits m g)) : ∀ i < m, f i = g i := by
  have hself : ∀ f : ℕ → Bool, reflectedBits m f %ₘ generator p = reflectedBits m f := by
    intro f
    rw [modByMonic_eq_self_iff (generator_monic p), degree_generator]
    exact (degree_reflectedBits_lt f).trans_le (by exact_mod_cast hm)
  apply reflectedBits_inj
  rw [AdjoinRoot.mk_eq_mk, ← modByMonic_eq_zero_iff_dvd (generator_monic p), sub_modByMonic,
    hself, hself, sub_eq_zero] at h
  exact h

end

end Jellybean.Crc
