import Jellybean.Framework.Crc
import Mathlib.GroupTheory.OrderOfElement

namespace Jellybean.Crc

open Polynomial

variable {w n m q : ℕ} {p : BitVec w}

noncomputable section

/-- A string of bits as a polynomial, the first bit being the coefficient of the highest power. -/
def message (bits : List Bool) : (ZMod 2)[X] :=
  reflectedBits bits.length fun i => bits.getD i false

theorem message_nil : message [] = 0 := by
  simp [message, reflectedBits]

theorem message_cons (b : Bool) (bits : List Bool) :
    message (b :: bits) = (if b then X ^ bits.length else 0) + message bits := by
  have htail : (fun i => (b :: bits).getD (1 + i) false) = fun i => bits.getD i false := by
    funext i
    rw [Nat.add_comm 1 i, List.getD_cons_succ]
  unfold message
  rw [List.length_cons, reflectedBits_split (n := bits.length) (m := 1) rfl, reflectedBits_one,
    htail, add_comm]
  cases b <;> simp

theorem message_append (bits bits' : List Bool) :
    message (bits ++ bits') = X ^ bits'.length * message bits + message bits' := by
  induction bits with
  | nil => simp [message_nil]
  | cons b bits ih =>
    rw [List.cons_append, message_cons, message_cons, ih, List.length_append, pow_add]
    cases b
    · simp
    · simp only [if_true]
      ring

/-- The bits in which two strings differ. -/
def errors (bits bits' : List Bool) : List Bool := List.zipWith xor bits bits'

theorem message_errors {bits bits' : List Bool} (h : bits.length = bits'.length) :
    message (errors bits bits') = message bits + message bits' := by
  induction bits generalizing bits' with
  | nil =>
    have hnil : bits' = [] := List.eq_nil_of_length_eq_zero h.symm
    rw [hnil, errors, List.zipWith_nil_left, message_nil, add_zero]
  | cons b bits ih =>
    cases bits' with
    | nil => cases h
    | cons b' bits' =>
      have hlen : bits.length = bits'.length := Nat.succ.inj h
      have hxor : (errors bits bits').length = bits.length := by simp [errors, hlen]
      have hcons : errors (b :: bits) (b' :: bits') = (b ^^ b') :: errors bits bits' := rfl
      rw [hcons, message_cons, message_cons, message_cons, ih hlen, hxor, ← hlen]
      have hsum : (X ^ bits.length : (ZMod 2)[X]) + X ^ bits.length = 0 :=
        CharTwo.add_self_eq_zero _
      cases b <;> cases b' <;> simp
      · ring
      · ring
      · linear_combination -hsum

/-! The generator has a root at one: every codeword has an even number of ones. -/

theorem eval_message (bits : List Bool) : (message bits).eval 1 = (bits.count true : ZMod 2) := by
  induction bits with
  | nil => simp [message_nil]
  | cons b bits ih =>
    rw [message_cons, eval_add, ih]
    cases b
    · simp
    · simp [add_comm]

theorem even_count (h1 : (generator p).eval 1 = 0) {bits : List Bool}
    (h : AdjoinRoot.mk (generator p) (message bits) = 0) : Even (bits.count true) := by
  obtain ⟨f, hf⟩ := AdjoinRoot.mk_eq_zero.mp h
  have heval := eval_message bits
  rw [hf, eval_mul, h1, zero_mul] at heval
  exact (ZMod.natCast_eq_zero_iff_even).mp heval.symm

/-! Two ones are powers of `X` that agree, and lie apart by a multiple of its order. -/

theorem message_of_count_one {bits : List Bool} (h : bits.count true = 1) :
    ∃ i < bits.length, message bits = X ^ i := by
  induction bits with
  | nil => cases h
  | cons b bits ih =>
    rw [message_cons]
    cases b with
    | false =>
      obtain ⟨i, hi, hm⟩ := ih (by simpa using h)
      exact ⟨i, Nat.lt_succ_of_lt hi, by simp [hm]⟩
    | true =>
      have hzero : bits.count true = 0 := by simpa using h
      have hm : message bits = 0 := by
        rw [message]
        apply reflectedBits_eq_zero
        intro i hi
        have hget : bits.getD i false = bits[i] := by simp [hi]
        rw [hget]
        by_contra hb
        have hmem : true ∈ bits := by
          rw [← Bool.eq_true_of_not_eq_false hb]
          exact List.getElem_mem hi
        exact List.count_eq_zero.mp hzero hmem
      exact ⟨bits.length, Nat.lt_succ_self _, by simp [hm]⟩

theorem message_of_count_two {bits : List Bool} (h : bits.count true = 2) :
    ∃ i j, i < j ∧ j < bits.length ∧ message bits = X ^ j + X ^ i := by
  induction bits with
  | nil => cases h
  | cons b bits ih =>
    rw [message_cons]
    cases b with
    | false =>
      obtain ⟨i, j, hij, hj, hm⟩ := ih (by simpa using h)
      exact ⟨i, j, hij, Nat.lt_succ_of_lt hj, by simp [hm]⟩
    | true =>
      have hone : bits.count true = 1 := by simpa using h
      obtain ⟨i, hi, hm⟩ := message_of_count_one hone
      exact ⟨i, bits.length, hi, Nat.lt_succ_self _, by simp [hm]⟩

/-- The minimum distance of strings no longer than the order of `X`. -/
theorem four_le_count (h0 : (generator p).coeff 0 = 1) (h1 : (generator p).eval 1 = 0)
    (hord : ∀ d, 0 < d → d < q → AdjoinRoot.mk (generator p) X ^ d ≠ 1) {bits : List Bool}
    (hlen : bits.length ≤ q) (h : AdjoinRoot.mk (generator p) (message bits) = 0)
    (hne : true ∈ bits) : 4 ≤ bits.count true := by
  obtain ⟨k, hk⟩ := even_count h1 h
  have hpos : 0 < bits.count true := List.count_pos_iff.mpr hne
  have htwo : bits.count true ≠ 2 := by
    intro h2
    obtain ⟨i, j, hij, hj, hm⟩ := message_of_count_two h2
    rw [hm, map_add, map_pow, map_pow] at h
    have hsplit : j = i + (j - i) := by omega
    apply hord (j - i) (by omega) (by omega)
    apply ((isUnit_mk_X h0).pow i).mul_left_cancel
    rw [← pow_add, ← hsplit, mul_one]
    have hself : AdjoinRoot.mk (generator p) X ^ i + AdjoinRoot.mk (generator p) X ^ i = 0 := by
      rw [← map_pow, ← map_add, CharTwo.add_self_eq_zero, map_zero]
    exact add_right_cancel (h.trans hself.symm)
  omega

/-! Products of residues, computed on registers. -/

/-- Multiplies by the bits of `b`, the highest power first. -/
def mulMod (p a b : BitVec w) : BitVec w :=
  (List.range w).foldl
    (fun acc i => if b.getLsbD i then bitStep p acc ^^^ a else bitStep p acc) 0

theorem residue_zero : residue p 0#w = 0 := by
  simp [residue, reflected, reflectedBits]

theorem residue_foldl_mul (h : n + 1 = w) (a b : BitVec w) (k : ℕ) :
    residue p ((List.range k).foldl
      (fun acc i => if b.getLsbD i then bitStep p acc ^^^ a else bitStep p acc) 0) =
        residue p a * AdjoinRoot.mk (generator p) (reflectedBits k b.getLsbD) := by
  induction k with
  | zero => simp [residue_zero, reflectedBits]
  | succ k ih =>
    rw [List.range_succ, List.foldl_append, List.foldl_cons, List.foldl_nil]
    generalize (List.range k).foldl
      (fun acc i => if b.getLsbD i then bitStep p acc ^^^ a else bitStep p acc) 0 = acc at ih ⊢
    rw [reflectedBits_split (Nat.add_comm 1 k), reflectedBits_one, Nat.add_zero, pow_one, map_add,
      map_mul, mul_add]
    cases b.getLsbD k
    · rw [if_neg Bool.false_ne_true, if_neg Bool.false_ne_true, residue_bitStep h, ih, map_zero]
      ring
    · rw [if_pos rfl, if_pos rfl, residue_xor, residue_bitStep h, ih, map_one]
      ring

theorem residue_mulMod (h : n + 1 = w) (a b : BitVec w) :
    residue p (mulMod p a b) = residue p a * residue p b := by
  unfold mulMod
  rw [residue_foldl_mul h]
  rfl

/-- Repeated squaring. -/
theorem residue_iterate_square (h : n + 1 = w) (a : BitVec w) (k : ℕ) :
    residue p ((fun c => mulMod p c c)^[k] a) = residue p a ^ 2 ^ k := by
  induction k with
  | zero => simp
  | succ k ih =>
    rw [Function.iterate_succ_apply', residue_mulMod h, ih, ← pow_add, ← two_mul, ← pow_succ']

/-- The register that stands for `X ^ (w - 1 - i)`. -/
theorem reflected_twoPow {i : ℕ} (hi : i < w) :
    reflected (BitVec.twoPow w i) = X ^ (w - 1 - i) := by
  unfold reflected reflectedBits
  rw [Finset.sum_eq_single i]
  · simp [hi]
  · intro j _ hj
    simp [BitVec.getLsbD_twoPow, Ne.symm hj]
  · intro h
    exact absurd (Finset.mem_range.mpr hi) h

/-- If `X` returns after `q` steps for a prime `q`, it does not return earlier. -/
theorem X_pow_ne_one (hq : q.Prime) (hw : 1 < w) (hone : AdjoinRoot.mk (generator p) X ^ q = 1)
    {d : ℕ} (hpos : 0 < d) (hlt : d < q) : AdjoinRoot.mk (generator p) X ^ d ≠ 1 := by
  have hne : AdjoinRoot.mk (generator p) X ≠ 1 := by
    intro h
    have hX : residue p (BitVec.twoPow w (w - 2)) = residue p (BitVec.twoPow w (w - 1)) := by
      rw [residue, residue, reflected_twoPow (by omega), reflected_twoPow (by omega),
        show w - 1 - (w - 2) = 1 by omega, show w - 1 - (w - 1) = 0 by omega, pow_one, pow_zero, h,
        map_one]
    have hbit := congrArg (fun c => c.getLsbD (w - 1)) (residue_injective hX)
    have hw1 : w - 1 < w := by omega
    have hw2 : w - 2 ≠ w - 1 := by omega
    simp [hw1] at hbit
    omega
  intro hd
  have hfact : Fact q.Prime := ⟨hq⟩
  have horder := orderOf_eq_prime hone hne
  have hdvd := orderOf_dvd_of_pow_eq_one hd
  rw [horder] at hdvd
  exact absurd (Nat.le_of_dvd hpos hdvd) (by omega)

end

end Jellybean.Crc
