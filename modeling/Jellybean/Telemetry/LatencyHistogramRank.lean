import Mathlib.Data.Rat.Floor
import Jellybean.Framework.Ranks
import Jellybean.Telemetry.LatencyHistogram

namespace Jellybean.Telemetry.LatencyHistogram

/-- The histogram after a sequence of calls of `record`. -/
def recordAll (latencies : List UInt64) : LatencyHistogram := latencies.foldl record empty

/-- `target` as a function of the total, with the product taken exactly. -/
def exactTarget (p : ℚ) (total : UInt64) : UInt64 := UInt64.ofNat ⌊(total.toNat : ℚ) * p⌋₊

/-- The nearest-rank percentile. -/
def nearestRank (latencies : List UInt64) (p : ℚ) : Nat :=
  kthSmallest (latencies.map UInt64.toNat) ⌈(latencies.length : ℚ) * p⌉₊

/-- The recorded latency at the rank that `percentile` looks for. -/
def floorRank (latencies : List UInt64) (p : ℚ) : Nat :=
  kthSmallest (latencies.map UInt64.toNat) ⌊(latencies.length : ℚ) * p⌋₊

/-- The result is within a factor of two below the nearest-rank percentile. -/
def WithinFactorTwo (latencies : List UInt64) (p : ℚ) : Prop :=
  0 < nearestRank latencies p →
    ((recordAll latencies).percentileWith (exactTarget p)).toNat ≤ nearestRank latencies p ∧
      nearestRank latencies p < 2 * ((recordAll latencies).percentileWith (exactTarget p)).toNat

/-- The number of latencies below `2^i`, in the 64 bits of the counters. -/
def countUpTo (latencies : List UInt64) (i : Nat) : Nat :=
  latencies.countP (fun x => x.toNat.size ≤ i) % 2^64

/-- `i` is the first bit length up to which at least `target` latencies are counted. -/
def FirstReaches (latencies : List UInt64) (target i : Nat) : Prop :=
  target ≤ countUpTo latencies i ∧ ∀ j < i, countUpTo latencies j < target

/-- The latencies at the rank rounded down and at the rank rounded up have one bit length, or
the latter is at most one. From 2^64 records on the condition is about the counters, which
have wrapped. -/
def RanksShareBucket (latencies : List UInt64) (p : ℚ) : Prop :=
  if latencies.length < 2^64 then
    nearestRank latencies p ≤ 1 ∨
      1 ≤ ⌊(latencies.length : ℚ) * p⌋₊ ∧
        (floorRank latencies p).size = (nearestRank latencies p).size
  else
    nearestRank latencies p = 0 ∨
      latencies.length % 2^64 ≠ 0 ∧
        ∃ i, FirstReaches latencies ⌊((latencies.length % 2^64 : Nat) : ℚ) * p⌋₊ i ∧
          (nearestRank latencies p).size = i - 1 + 1

instance (latencies : List UInt64) (p : ℚ) : Decidable (WithinFactorTwo latencies p) :=
  inferInstanceAs (Decidable (_ → _ ∧ _))

variable {xs : List UInt64} {p : ℚ} {k i t x : Nat} {count target : UInt64}

theorem bucket_foldl (h : LatencyHistogram) (xs : List UInt64) (i : Fin 1024) :
    ((xs.foldl record h).buckets i).toNat =
      ((h.buckets i).toNat + xs.countP fun x => x.toNat.size = i.val) % 2^64 := by
  induction xs generalizing h with
  | nil => exact (Nat.mod_eq_of_lt (h.buckets i).toNat_lt).symm
  | cons x xs ih =>
    rw [List.foldl_cons, ih]
    by_cases he : i = bucketFor x
    · have hx : x.toNat.size = i.val := by rw [he, bucketFor_val]
      rw [he, record_self, ← he, List.countP_cons_of_pos (by simpa using hx), UInt64.toNat_add,
        Nat.mod_add_mod, UInt64.toNat_one]
      congr 1
      omega
    · have hx : x.toNat.size ≠ i.val := by
        intro hx
        exact he (Fin.ext (by rw [bucketFor_val, hx]))
      rw [record_of_ne he, List.countP_cons_of_neg (by simpa using hx)]

/-- The latencies in the buckets before `k`. -/
def before (xs : List UInt64) (k : Nat) : Nat := xs.countP fun x => x.toNat.size < k

theorem before_succ (xs : List UInt64) (k : Nat) :
    before xs (k + 1) = before xs k + xs.countP fun x => x.toNat.size = k := by
  unfold before
  induction xs with
  | nil => rfl
  | cons x xs ih =>
    simp only [List.countP_cons, ih, decide_eq_true_eq]
    split_ifs <;> omega

theorem countUpTo_eq (xs : List UInt64) (i : Nat) : countUpTo xs i = before xs (i + 1) % 2^64 := by
  unfold countUpTo before
  simp only [Nat.lt_succ_iff]

theorem before_all (hk : 64 < k) : before xs k = xs.length := by
  apply List.countP_eq_length.mpr
  intro x _
  have h := Nat.size_le.mpr x.toNat_lt
  rw [decide_eq_true_eq]
  omega

/-- One iteration of either loop adds the latencies of one bucket to those before it. -/
theorem count_step (hk : k < 1024) (hc : count.toNat = before xs k % 2^64) :
    (count + (recordAll xs).buckets ⟨k, hk⟩).toNat = before xs (k + 1) % 2^64 := by
  have hb := bucket_foldl empty xs ⟨k, hk⟩
  have hz : (empty.buckets ⟨k, hk⟩).toNat = 0 := rfl
  rw [hz, Nat.zero_add] at hb
  unfold recordAll
  rw [UInt64.toNat_add, hb, hc, before_succ, ← Nat.add_mod]

theorem drop_finRange (hk : k < 1024) :
    (List.finRange 1024).drop k = ⟨k, hk⟩ :: (List.finRange 1024).drop (k + 1) := by
  have hlen : k < (List.finRange 1024).length := by
    rw [List.length_finRange]
    exact hk
  rw [List.drop_eq_getElem_cons hlen, List.getElem_finRange]
  rfl

theorem sum_drop (hk : k ≤ 1024) (hc : count.toNat = before xs k % 2^64) :
    ((recordAll xs).sum ((List.finRange 1024).drop k) count).toNat = before xs 1024 % 2^64 := by
  induction hn : 1024 - k generalizing k count with
  | zero =>
    have he : k = 1024 := by omega
    rw [he] at hc ⊢
    rw [List.drop_of_length_le (by simp), sum]
    exact hc
  | succ n ih =>
    have hlt : k < 1024 := by omega
    rw [drop_finRange hlt, sum]
    exact ih (by omega) (count_step hlt hc) (by omega)

theorem sum_recordAll (xs : List UInt64) :
    ((recordAll xs).sum (List.finRange 1024) 0).toNat = xs.length % 2^64 := by
  have h0 : before xs 0 = 0 := List.countP_eq_zero.mpr (by simp)
  have hstart : (0 : UInt64).toNat = before xs 0 % 2^64 := by
    rw [h0]
    rfl
  have hsum := sum_drop (Nat.zero_le _) hstart
  rwa [List.drop_zero, before_all (by decide)] at hsum

theorem scan_drop (hi : i < 1024) (hki : k ≤ i) (hc : count.toNat = before xs k % 2^64)
    (hfirst : FirstReaches xs target.toNat i) :
    (recordAll xs).scan target ((List.finRange 1024).drop k) count = lowerBound ⟨i, hi⟩ := by
  induction hn : i - k generalizing k count with
  | zero =>
    have he : k = i := by omega
    subst he
    have hstop : target ≤ count + (recordAll xs).buckets ⟨k, hi⟩ := by
      rw [UInt64.le_iff_toNat_le, count_step hi hc, ← countUpTo_eq]
      exact hfirst.1
    rw [drop_finRange hi, scan, if_pos hstop]
  | succ n ih =>
    have hk : k < 1024 := by omega
    have hstep := count_step hk hc
    have hmiss : ¬target ≤ count + (recordAll xs).buckets ⟨k, hk⟩ := by
      rw [UInt64.le_iff_toNat_le, hstep, ← countUpTo_eq]
      exact Nat.not_le.mpr (hfirst.2 k (by omega))
    rw [drop_finRange hk, scan, if_neg hmiss]
    exact ih (by omega) hstep (by omega)

theorem exactTarget_toNat (h1 : p ≤ 1) (total : UInt64) :
    (exactTarget p total).toNat = ⌊(total.toNat : ℚ) * p⌋₊ ∧
      ⌊(total.toNat : ℚ) * p⌋₊ ≤ total.toNat := by
  have hle : ⌊(total.toNat : ℚ) * p⌋₊ ≤ total.toNat := by
    apply Nat.floor_le_of_le
    exact mul_le_of_le_one_right (by positivity) h1
  have hlt := total.toNat_lt
  unfold exactTarget
  rw [UInt64.toNat_ofNat', Nat.mod_eq_of_lt (by omega)]
  exact ⟨rfl, hle⟩

theorem exists_firstReaches (ht : t ≤ xs.length % 2^64) : ∃ i ≤ 64, FirstReaches xs t i := by
  have hall : t ≤ countUpTo xs 64 := by
    rwa [countUpTo_eq, before_all (by decide)]
  have hex : ∃ i, t ≤ countUpTo xs i := ⟨64, hall⟩
  refine ⟨Nat.find hex, Nat.find_min' hex hall, Nat.find_spec hex, ?_⟩
  intro j hj
  exact Nat.not_le.mp (Nat.find_min hex hj)

theorem FirstReaches.unique {j : Nat} (hi : FirstReaches xs t i) (hj : FirstReaches xs t j) :
    i = j := by
  by_contra hne
  rcases Nat.lt_or_gt_of_ne hne with hlt | hlt
  · exact Nat.not_le.mpr (hj.2 i hlt) hi.1
  · exact Nat.not_le.mpr (hi.2 j hlt) hj.1

theorem percentileWith_zero (h0 : xs.length % 2^64 = 0) :
    (recordAll xs).percentileWith (exactTarget p) = 0 := by
  have hsum := sum_recordAll xs
  rw [h0] at hsum
  unfold percentileWith
  exact if_pos (UInt64.toNat_inj.mp hsum)

/-- The result is the lower bound of the bucket at which the count reaches the target. -/
theorem percentileWith_eq (h1 : p ≤ 1) (h0 : xs.length % 2^64 ≠ 0)
    (hfirst : FirstReaches xs ⌊((xs.length % 2^64 : Nat) : ℚ) * p⌋₊ i) :
    ((recordAll xs).percentileWith (exactTarget p)).toNat = 2^(i - 1) := by
  have hsum := sum_recordAll xs
  obtain ⟨htarget, hle⟩ := exactTarget_toNat h1 ((recordAll xs).sum (List.finRange 1024) 0)
  rw [hsum] at htarget hle
  have hi : i ≤ 64 := by
    obtain ⟨j, hj, hreach⟩ := exists_firstReaches hle
    rwa [hfirst.unique hreach]
  rw [← htarget] at hfirst
  have hne : (recordAll xs).sum (List.finRange 1024) 0 ≠ 0 := by
    intro hz
    rw [hz] at hsum
    exact h0 hsum.symm
  have hbefore : before xs 0 = 0 := List.countP_eq_zero.mpr (by simp)
  have hstart : (0 : UInt64).toNat = before xs 0 % 2^64 := by
    rw [hbefore]
    rfl
  have hscan := scan_drop (by omega) (Nat.zero_le i) hstart hfirst
  rw [List.drop_zero] at hscan
  unfold percentileWith
  dsimp only
  rw [if_neg hne, hscan]
  exact lowerBound_toNat hi

theorem factorTwo_iff (x k : Nat) : 2^k ≤ x ∧ x < 2 * 2^k ↔ x.size = k + 1 := by
  have hlow : 2^k ≤ x ↔ k < x.size := Nat.lt_size.symm
  have hup : x < 2 * 2^k ↔ x.size ≤ k + 1 := by
    rw [← Nat.pow_succ']
    exact Nat.size_le.symm
  rw [hlow, hup]
  omega

theorem withinFactorTwo_iff (h1 : p ≤ 1) (h0 : xs.length % 2^64 ≠ 0)
    (hfirst : FirstReaches xs ⌊((xs.length % 2^64 : Nat) : ℚ) * p⌋₊ i) :
    WithinFactorTwo xs p ↔
      nearestRank xs p = 0 ∨ (nearestRank xs p).size = i - 1 + 1 := by
  unfold WithinFactorTwo
  rw [percentileWith_eq h1 h0 hfirst]
  rcases Nat.eq_zero_or_pos (nearestRank xs p) with hz | hpos
  · simp [hz]
  · have hne : nearestRank xs p ≠ 0 := by omega
    simp only [hpos, hne, true_implies, false_or]
    exact factorTwo_iff _ _

theorem le_countUpTo_iff (hlen : xs.length < 2^64) (ht : 1 ≤ t) (hle : t ≤ xs.length) (i : Nat) :
    t ≤ countUpTo xs i ↔ (kthSmallest (xs.map UInt64.toNat) t).size ≤ i := by
  have hmono : Monotone Nat.size := fun _ _ h => Nat.size_le_size h
  rw [← le_countP_iff hmono ht (by rwa [List.length_map]), List.countP_map]
  unfold countUpTo
  rw [Nat.mod_eq_of_lt (List.countP_le_length.trans_lt hlen)]
  rfl

theorem firstReaches_size (hlen : xs.length < 2^64) (ht : 1 ≤ t) (hle : t ≤ xs.length) :
    FirstReaches xs t (kthSmallest (xs.map UInt64.toNat) t).size := by
  constructor
  · exact (le_countUpTo_iff hlen ht hle _).mpr le_rfl
  · intro j hj
    rw [← Nat.not_le, le_countUpTo_iff hlen ht hle]
    omega

theorem firstReaches_zero (xs : List UInt64) : FirstReaches xs 0 0 :=
  ⟨Nat.zero_le _, fun _ hj => absurd hj (Nat.not_lt_zero _)⟩

theorem size_le_one (hx : x ≤ 1) : x.size ≤ 1 := Nat.size_le.mpr (by omega)

theorem floor_le_ceil_rank (h1 : p ≤ 1) (n : Nat) :
    ⌊(n : ℚ) * p⌋₊ ≤ ⌈(n : ℚ) * p⌉₊ ∧ ⌈(n : ℚ) * p⌉₊ ≤ n := by
  refine ⟨Nat.floor_le_ceil _, Nat.ceil_le.mpr ?_⟩
  exact mul_le_of_le_one_right (by positivity) h1

/-- Fewer than 2^64 records: the bucket of the result is that of the rank rounded down, or
the first one when that rank is 0. -/
theorem withinFactorTwo_iff_ranks (hne : xs ≠ []) (h1 : p ≤ 1)
    (hlen : xs.length < 2^64) :
    WithinFactorTwo xs p ↔
      nearestRank xs p ≤ 1 ∨ 1 ≤ ⌊(xs.length : ℚ) * p⌋₊ ∧
        (floorRank xs p).size = (nearestRank xs p).size := by
  have hmod : xs.length % 2^64 = xs.length := Nat.mod_eq_of_lt hlen
  have hpos : xs.length ≠ 0 := by
    rw [Ne, List.length_eq_zero_iff]
    exact hne
  obtain ⟨hfloor, hceil⟩ := floor_le_ceil_rank h1 xs.length
  have hsmall : nearestRank xs p ≤ 1 ↔ (nearestRank xs p).size ≤ 1 := by
    rw [Nat.size_le]
    omega
  have hzero : nearestRank xs p = 0 ↔ (nearestRank xs p).size = 0 := Nat.size_eq_zero.symm
  rcases Nat.eq_zero_or_pos ⌊(xs.length : ℚ) * p⌋₊ with hr | hr
  · have hfirst : FirstReaches xs ⌊((xs.length % 2^64 : Nat) : ℚ) * p⌋₊ 0 := by
      rw [hmod, hr]
      exact firstReaches_zero xs
    rw [withinFactorTwo_iff h1 (by rwa [hmod]) hfirst, hzero, hsmall]
    omega
  · have hfirst : FirstReaches xs ⌊((xs.length % 2^64 : Nat) : ℚ) * p⌋₊ (floorRank xs p).size := by
      rw [hmod]
      exact firstReaches_size hlen hr (hfloor.trans hceil)
    have hmono : (floorRank xs p).size ≤ (nearestRank xs p).size := by
      apply Nat.size_le_size
      exact kthSmallest_mono hr hfloor (by rwa [List.length_map])
    rw [withinFactorTwo_iff h1 (by rwa [hmod]) hfirst, hzero, hsmall]
    omega

/-- One latency of 1000 ns: the 99th percentile is reported as 1 ns. -/
theorem percentile_below_rank : ¬WithinFactorTwo [1000] (99 / 100) := by
  decide +kernel

/-- For every sequence of records and every fraction: `percentile` is within a factor of two
below the nearest-rank percentile exactly when rounding the rank down stays in its bucket. -/
theorem percentile_nearestRank_iff (xs : List UInt64) (hne : xs ≠ []) (p : ℚ) (h1 : p ≤ 1) :
    WithinFactorTwo xs p ↔ RanksShareBucket xs p := by
  unfold RanksShareBucket
  by_cases hlen : xs.length < 2^64
  · rw [if_pos hlen]
    exact withinFactorTwo_iff_ranks hne h1 hlen
  · rw [if_neg hlen]
    by_cases h0 : xs.length % 2^64 = 0
    · unfold WithinFactorTwo
      rw [percentileWith_zero h0, UInt64.toNat_zero]
      omega
    · obtain ⟨_, hle⟩ := exactTarget_toNat h1 ((recordAll xs).sum (List.finRange 1024) 0)
      rw [sum_recordAll] at hle
      obtain ⟨i, _, hfirst⟩ := exists_firstReaches hle
      rw [withinFactorTwo_iff h1 h0 hfirst]
      apply or_congr_right
      constructor
      · intro hsize
        exact ⟨h0, i, hfirst, hsize⟩
      · intro hcond
        obtain ⟨_, j, hj, hsize⟩ := hcond
        rwa [hfirst.unique hj]

theorem percentile_nearestRank_iff_three : WithinFactorTwo [6, 9, 4] (1 / 2) :=
  (percentile_nearestRank_iff [6, 9, 4] (by decide) (1 / 2) (by decide +kernel)).mpr
    (by unfold RanksShareBucket; rw [if_pos (by decide)]; decide +kernel)

end Jellybean.Telemetry.LatencyHistogram
