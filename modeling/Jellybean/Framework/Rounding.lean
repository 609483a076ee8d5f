import Mathlib.Tactic
import Mathlib.Data.Nat.Size

namespace Jellybean

variable {n m m' a b c d q g k e P y : Nat}

/-- The multiple of `d` nearest to `a`, counted in multiples. A tie goes to the even one. -/
def nearestEven (a d : Nat) : Nat :=
  if 2 * (a % d) < d then a / d
  else if d < 2 * (a % d) then a / d + 1
  else a / d + a / d % 2

theorem nearestEven_cases (a d : Nat) :
    nearestEven a d = a / d ∧ 2 * (a % d) ≤ d ∨
      nearestEven a d = a / d + 1 ∧ d ≤ 2 * (a % d) := by
  unfold nearestEven
  split_ifs <;> omega

theorem nearestEven_mul (q : Nat) (hd : 0 < d) : nearestEven (q * d) d = q := by
  unfold nearestEven
  rw [Nat.mul_mod_left, Nat.mul_div_cancel q hd, if_pos (by omega)]

theorem nearestEven_mono (h : a ≤ b) : nearestEven a d ≤ nearestEven b d := by
  have hq : a / d ≤ b / d := Nat.div_le_div_right h
  by_cases hlt : a / d < b / d
  · have ha := nearestEven_cases a d
    have hb := nearestEven_cases b d
    omega
  · have he : a / d = b / d := by omega
    have hda := Nat.div_add_mod a d
    have hdb := Nat.div_add_mod b d
    have hr : a % d ≤ b % d := by
      rw [he] at hda
      omega
    unfold nearestEven
    rw [he]
    split_ifs <;> omega

theorem nearestEven_scale (a d : Nat) (hc : 0 < c) :
    nearestEven (a * c) (d * c) = nearestEven a d := by
  have h2 : 2 * (a % d * c) = 2 * (a % d) * c := by ring
  unfold nearestEven
  simp only [Nat.mul_div_mul_right _ _ hc, Nat.mul_mod_mul_right, h2, Nat.mul_lt_mul_right hc]

theorem two_mul_nearestEven_le (a d : Nat) : 2 * (nearestEven a d * d) ≤ 2 * a + d := by
  have hd := Nat.div_add_mod a d
  rw [Nat.mul_comm] at hd
  rcases nearestEven_cases a d with ⟨he, _⟩ | ⟨he, hr⟩
  · rw [he]
    omega
  · rw [he, Nat.add_mul, Nat.one_mul]
    omega

/-- The low bits that do not fit a mantissa of `n` bits. -/
def lostBits (n m : Nat) : Nat := m.size - n

/-- `m` rounded to `n` significant bits, to the nearest, ties to even. -/
def roundBits (n m : Nat) : Nat := nearestEven m (2^lostBits n m) * 2^lostBits n m

/-- Numbers with a mantissa of `n` bits. -/
def Representable (n y : Nat) : Prop := ∃ q e, q < 2^n ∧ y = q * 2^e

theorem lt_two_pow_lostBits (n m : Nat) : m < 2^n * 2^lostBits n m := by
  rw [← Nat.pow_add, ← Nat.size_le]
  unfold lostBits
  omega

theorem two_pow_lostBits_le (hn : 0 < n) (hl : 0 < lostBits n m) :
    2^(n - 1) * 2^lostBits n m ≤ m := by
  rw [← Nat.pow_add, ← Nat.lt_size]
  unfold lostBits at *
  omega

theorem lostBits_mono (h : m ≤ m') : lostBits n m ≤ lostBits n m' :=
  Nat.sub_le_sub_right (Nat.size_le_size h) n

theorem representable_of_le (hn : 0 < n) (hq : q ≤ 2^n) : Representable n (q * 2^e) := by
  rcases Nat.lt_or_ge q (2^n) with hlt | hge
  · exact ⟨q, e, hlt, rfl⟩
  · refine ⟨1, n + e, Nat.one_lt_two_pow (by omega), ?_⟩
    have he : q = 2^n := by omega
    rw [he, one_mul, Nat.pow_add]

theorem Representable.mul_two_pow (h : Representable n y) (k : Nat) :
    Representable n (y * 2^k) := by
  obtain ⟨q, e, hq, he⟩ := h
  refine ⟨q, e + k, hq, ?_⟩
  rw [he, Nat.pow_add, Nat.mul_assoc]

/-- Next to a multiple of `2^g` with a full mantissa the representable numbers are
multiples of `2^g`, too. -/
theorem Representable.le_pred (h : Representable n y) (hq : 2^(n - 1) < q) (hn : 0 < n)
    (hy : y < q * 2^g) : y ≤ (q - 1) * 2^g := by
  obtain ⟨r, e, hr, he⟩ := h
  rcases Nat.lt_or_ge e g with hlt | hge
  · have hpow : 2^n * 2^e ≤ 2^(n - 1) * 2^g := by
      rw [← Nat.pow_add, ← Nat.pow_add]
      exact Nat.pow_le_pow_right (by omega) (by omega)
    have hle : r * 2^e ≤ 2^n * 2^e := Nat.mul_le_mul_right _ hr.le
    have hqg : 2^(n - 1) * 2^g ≤ (q - 1) * 2^g := Nat.mul_le_mul_right _ (by omega)
    omega
  · have hsplit : y = r * 2^(e - g) * 2^g := by
      rw [he, Nat.mul_assoc, ← Nat.pow_add]
      congr 2
      omega
    rw [hsplit] at hy ⊢
    have hlt := Nat.lt_of_mul_lt_mul_right hy
    exact Nat.mul_le_mul_right _ (by omega)

theorem nearestEven_lostBits_le (n m : Nat) : nearestEven m (2^lostBits n m) ≤ 2^n := by
  have h := nearestEven_mono (d := 2^lostBits n m) (lt_two_pow_lostBits n m).le
  rwa [nearestEven_mul _ (Nat.two_pow_pos _)] at h

theorem roundBits_representable (hn : 0 < n) : Representable n (roundBits n m) :=
  representable_of_le hn (nearestEven_lostBits_le n m)

theorem roundBits_of_representable (h : Representable n y) : roundBits n y = y := by
  obtain ⟨q, e, hq, he⟩ := h
  have hsize : y.size ≤ n + e := by
    rw [Nat.size_le, he, Nat.pow_add]
    exact Nat.mul_lt_mul_of_pos_right hq (Nat.two_pow_pos e)
  have hl : lostBits n y ≤ e := by
    unfold lostBits
    omega
  have hsplit : y = q * 2^(e - lostBits n y) * 2^lostBits n y := by
    rw [Nat.mul_assoc, ← Nat.pow_add, Nat.sub_add_cancel hl]
    exact he
  have hnear : nearestEven y (2^lostBits n y) = q * 2^(e - lostBits n y) := by
    calc
      nearestEven y (2^lostBits n y)
        = nearestEven (q * 2^(e - lostBits n y) * 2^lostBits n y) (2^lostBits n y) := by
          rw [← hsplit]
      _ = q * 2^(e - lostBits n y) := nearestEven_mul _ (Nat.two_pow_pos _)
  unfold roundBits
  rw [hnear, ← hsplit]

theorem roundBits_of_lt (h : m < 2^n) : roundBits n m = m :=
  roundBits_of_representable ⟨m, 0, h, by simp⟩

theorem roundBits_mono (hn : 0 < n) (h : m ≤ m') : roundBits n m ≤ roundBits n m' := by
  have hle : lostBits n m ≤ lostBits n m' := lostBits_mono h
  rcases Nat.eq_or_lt_of_le hle with he | hlt
  · unfold roundBits
    rw [he]
    exact Nat.mul_le_mul_right _ (nearestEven_mono h)
  · have hlow := two_pow_lostBits_le (m := m') hn (by omega)
    have hnear := nearestEven_mono (d := 2^lostBits n m') hlow
    rw [nearestEven_mul _ (Nat.two_pow_pos _)] at hnear
    calc
      roundBits n m ≤ 2^n * 2^lostBits n m :=
        Nat.mul_le_mul_right _ (nearestEven_lostBits_le n m)
      _ ≤ 2^(n - 1) * 2^lostBits n m' := by
        rw [← Nat.pow_add, ← Nat.pow_add]
        exact Nat.pow_le_pow_right (by omega) (by omega)
      _ ≤ roundBits n m' := Nat.mul_le_mul_right _ hnear

theorem roundBits_le (hn : 0 < n) (hy : Representable n y) (h : m ≤ y) : roundBits n m ≤ y := by
  have hm := roundBits_mono hn h
  rwa [roundBits_of_representable hy] at hm

theorem roundBits_mul_two_pow (n m k : Nat) :
    roundBits n (m * 2^k) = roundBits n m * 2^k := by
  rcases Nat.lt_or_ge m (2^n) with hlt | hge
  · rw [roundBits_of_lt hlt, roundBits_of_representable ⟨m, k, hlt, rfl⟩]
  · have hm : m ≠ 0 := by
      have := Nat.two_pow_pos n
      omega
    have hsize : (m * 2^k).size = m.size + k := by
      rw [← Nat.shiftLeft_eq, Nat.size_shiftLeft hm]
    have hn : n < m.size := Nat.lt_size.mpr hge
    have hl : lostBits n (m * 2^k) = lostBits n m + k := by
      unfold lostBits
      omega
    unfold roundBits
    rw [hl, Nat.pow_add, nearestEven_scale _ _ (Nat.two_pow_pos k), Nat.mul_assoc]

/-- The relative error upwards is at most one part in `2^n`. -/
theorem two_pow_mul_roundBits_le (hn : 0 < n) (m : Nat) :
    2^n * roundBits n m ≤ (2^n + 1) * m := by
  rcases Nat.eq_zero_or_pos (lostBits n m) with hl | hl
  · have hlt := lt_two_pow_lostBits n m
    rw [hl, Nat.pow_zero, Nat.mul_one] at hlt
    rw [roundBits_of_lt hlt]
    exact Nat.mul_le_mul_right m (by omega)
  · have hlow := two_pow_lostBits_le (m := m) hn hl
    have hnear := two_mul_nearestEven_le m (2^lostBits n m)
    have hpow : 2^n = 2 * 2^(n - 1) := by
      rw [← Nat.pow_succ', Nat.succ_eq_add_one, Nat.sub_add_cancel hn]
    change 2 * roundBits n m ≤ 2 * m + 2^lostBits n m at hnear
    nlinarith [Nat.two_pow_pos (n - 1)]

/-- A product with a factor of at most one stays below the number that was rounded. -/
theorem roundBits_mul_le_of_exact (hn : 0 < n) (hP : P ≤ 2^k) (hm : roundBits n m ≤ m) :
    roundBits n (roundBits n m * P) ≤ m * 2^k := by
  have hrep := (roundBits_representable (m := m) hn).mul_two_pow k
  have hle := roundBits_le hn hrep (Nat.mul_le_mul_left (roundBits n m) hP)
  exact hle.trans (Nat.mul_le_mul_right _ hm)

/-- What rounding upwards leaves behind: the multiple before the result is below `m`, and its
mantissa is full. -/
theorem roundBits_up (hn : 0 < n) (hm : m < roundBits n m) :
    ∃ q e, roundBits n m = q * 2^e ∧ 2^(n - 1) < q ∧ (q - 1) * 2^e ≤ m := by
  have hl : 0 < lostBits n m := by
    by_contra h
    have hlt := lt_two_pow_lostBits n m
    rw [show lostBits n m = 0 by omega, Nat.pow_zero, Nat.mul_one] at hlt
    rw [roundBits_of_lt hlt] at hm
    omega
  have hdiv := Nat.div_mul_le_self m (2^lostBits n m)
  have hq : 2^(n - 1) ≤ m / 2^lostBits n m :=
    (Nat.le_div_iff_mul_le (Nat.two_pow_pos _)).mpr (two_pow_lostBits_le hn hl)
  have hup : nearestEven m (2^lostBits n m) = m / 2^lostBits n m + 1 := by
    rcases nearestEven_cases m (2^lostBits n m) with ⟨he, _⟩ | ⟨he, _⟩
    · unfold roundBits at hm
      rw [he] at hm
      omega
    · exact he
  refine ⟨m / 2^lostBits n m + 1, lostBits n m, ?_, by omega, ?_⟩
  · unfold roundBits
    rw [hup]
  · rw [Nat.add_sub_cancel]
    exact hdiv

/-- A factor below one by a unit of the `n`-bit mantissa outweighs the relative error. -/
theorem roundBits_mul_lt (hn : 0 < n) (ha : 0 < a) (hP : P * 2^n ≤ (2^n - 1) * 2^k) :
    roundBits n (a * P) < a * 2^k := by
  have hrel := two_pow_mul_roundBits_le hn (a * P)
  have hpos : 0 < a * 2^k := Nat.mul_pos ha (Nat.two_pow_pos k)
  obtain ⟨u, hu⟩ : ∃ u, 2^n = u + 1 := ⟨2^n - 1, by have := Nat.two_pow_pos n; omega⟩
  rw [hu, Nat.add_sub_cancel] at hP
  rw [hu] at hrel
  have hscaled := Nat.mul_le_mul_left (a * (u + 1 + 1)) hP
  by_contra hge
  push Not at hge
  have hmul := Nat.mul_le_mul_left ((u + 1) * (u + 1)) hge
  nlinarith

/-- A factor below one, as far as `n` bits can tell it from one, makes up for rounding
the other factor upwards. -/
theorem roundBits_mul_le (hn : 0 < n) (hP : P * 2^n ≤ (2^n - 1) * 2^k) :
    roundBits n (roundBits n m * P) ≤ m * 2^k := by
  have hone : 0 < 2^n := Nat.two_pow_pos n
  rcases Nat.lt_or_ge m (roundBits n m) with hm | hm
  · have hlt := roundBits_mul_lt hn (by omega) hP (a := roundBits n m)
    obtain ⟨q, e, he, hq, hle⟩ := roundBits_up hn hm
    have hrep := roundBits_representable (m := roundBits n m * P) hn
    have hpred : roundBits n (roundBits n m * P) ≤ (q - 1) * 2^(e + k) := by
      apply hrep.le_pred hq hn
      rw [Nat.pow_add, ← Nat.mul_assoc, ← he]
      exact hlt
    calc
      roundBits n (roundBits n m * P) ≤ (q - 1) * 2^(e + k) := hpred
      _ = (q - 1) * 2^e * 2^k := by rw [Nat.pow_add, Nat.mul_assoc]
      _ ≤ m * 2^k := Nat.mul_le_mul_right _ hle
  · apply roundBits_mul_le_of_exact hn _ hm
    have h : P * 2^n ≤ 2^k * 2^n := by
      rw [Nat.mul_comm (2^k)]
      exact hP.trans (Nat.mul_le_mul_right _ (by omega))
    exact Nat.le_of_mul_le_mul_right h hone

end Jellybean
