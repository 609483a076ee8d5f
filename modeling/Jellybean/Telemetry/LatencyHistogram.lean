import Jellybean.Framework.Rounding

namespace Jellybean.Telemetry

/-- `__builtin_clzll`, of a nonzero word. -/
def clzll (x : UInt64) : Nat := 63 - x.toNat.log2

/-- A `double` between 0 and 1: `mantissa / 2^exponent`. -/
structure Fraction where
  mantissa : Nat
  exponent : Nat
  mantissa_lt : mantissa < 2^53
  le_one : mantissa ≤ 2^exponent

namespace Fraction

def value (p : Fraction) : ℚ := p.mantissa / 2^p.exponent

/-- `static_cast<uint64_t>(static_cast<double>(total) * p)`: the conversion and the product are
both rounded to the 53 bits of a double. A product of 2^64, out of the range of the cast,
takes `p = 1` and `total` within 2^10 of 2^64. -/
def target (p : Fraction) (total : UInt64) : UInt64 :=
  UInt64.ofNat (roundBits 53 (roundBits 53 total.toNat * p.mantissa) / 2^p.exponent)

/-- The product of the two roundings stays at or below the total, for a fraction below one
and for a total that is not itself rounded upwards. The first total that is has 2^53 + 3. -/
def Faithful (p : Fraction) (total : Nat) : Prop := p.value < 1 ∨ total < 2^53 + 3

variable {p q : Fraction} {total : Nat}

theorem value_lt_one_iff (p : Fraction) : p.value < 1 ↔ p.mantissa < 2^p.exponent := by
  unfold value
  rw [div_lt_one (by positivity)]
  norm_cast

theorem value_le_iff (q p : Fraction) :
    q.value ≤ p.value ↔ q.mantissa * 2^p.exponent ≤ p.mantissa * 2^q.exponent := by
  unfold value
  rw [div_le_div_iff₀ (by positivity) (by positivity)]
  norm_cast

theorem value_le_one (p : Fraction) : p.value ≤ 1 := by
  unfold value
  rw [div_le_one (by positivity)]
  exact_mod_cast p.le_one

/-- A double below one is below by a unit of its mantissa. -/
theorem mantissa_mul_le (h : p.value < 1) :
    p.mantissa * 2^53 ≤ (2^53 - 1) * 2^p.exponent := by
  have hlt := (value_lt_one_iff p).mp h
  have hm := p.mantissa_lt
  rcases Nat.le_total p.exponent 53 with he | he
  · have hpow : 2^p.exponent ≤ 2^53 := Nat.pow_le_pow_right (by decide) he
    omega
  · have hpow : 2^53 ≤ 2^p.exponent := Nat.pow_le_pow_right (by decide) he
    omega

theorem roundBits_le_of_lt (h : total < 2^53 + 3) : roundBits 53 total ≤ total := by
  rcases Nat.lt_or_ge total (2^53) with hlt | hge
  · exact (roundBits_of_lt hlt).le
  · have hcases : total = 2^53 ∨ total = 2^53 + 1 ∨ total = 2^53 + 2 := by omega
    rcases hcases with he | he | he
    all_goals
      rw [he]
      decide +kernel

theorem rounded_le (h : p.Faithful total) :
    roundBits 53 (roundBits 53 total * p.mantissa) / 2^p.exponent ≤ total := by
  have hle : roundBits 53 (roundBits 53 total * p.mantissa) ≤ total * 2^p.exponent := by
    rcases h with hp | ht
    · exact roundBits_mul_le (by decide) (mantissa_mul_le hp)
    · exact roundBits_mul_le_of_exact (by decide) p.le_one (roundBits_le_of_lt ht)
  rw [Nat.mul_comm total] at hle
  exact Nat.div_le_of_le_mul hle

theorem rounded_mono (h : q.value ≤ p.value) (total : Nat) :
    roundBits 53 (roundBits 53 total * q.mantissa) / 2^q.exponent ≤
      roundBits 53 (roundBits 53 total * p.mantissa) / 2^p.exponent := by
  have hm := (value_le_iff q p).mp h
  have hprod := Nat.mul_le_mul_left (roundBits 53 total) hm
  rw [← Nat.mul_assoc, ← Nat.mul_assoc] at hprod
  have hround := roundBits_mono (n := 53) (by decide) hprod
  rw [roundBits_mul_two_pow, roundBits_mul_two_pow] at hround
  calc
    _ = roundBits 53 (roundBits 53 total * q.mantissa) * 2^p.exponent /
          (2^q.exponent * 2^p.exponent) :=
      (Nat.mul_div_mul_right _ _ (Nat.two_pow_pos _)).symm
    _ ≤ roundBits 53 (roundBits 53 total * p.mantissa) * 2^q.exponent /
          (2^q.exponent * 2^p.exponent) := Nat.div_le_div_right hround
    _ = roundBits 53 (roundBits 53 total * p.mantissa) * 2^q.exponent /
          (2^p.exponent * 2^q.exponent) := by rw [Nat.mul_comm (2^q.exponent)]
    _ = _ := Nat.mul_div_mul_right _ _ (Nat.two_pow_pos _)

theorem target_toNat {total : UInt64} (h : p.Faithful total.toNat) :
    (p.target total).toNat =
      roundBits 53 (roundBits 53 total.toNat * p.mantissa) / 2^p.exponent := by
  have hle := rounded_le h
  have hlt := total.toNat_lt
  unfold target
  rw [UInt64.toNat_ofNat', Nat.mod_eq_of_lt (by omega)]

theorem target_le {total : UInt64} (h : p.Faithful total.toNat) : p.target total ≤ total := by
  rw [UInt64.le_iff_toNat_le, target_toNat h]
  exact rounded_le h

theorem Faithful.of_le (h : p.Faithful total) (hq : q.value ≤ p.value) : q.Faithful total :=
  h.imp_left hq.trans_lt

theorem target_mono {total : UInt64} (h : p.Faithful total.toNat) (hq : q.value ≤ p.value) :
    q.target total ≤ p.target total := by
  rw [UInt64.le_iff_toNat_le, target_toNat h, target_toNat (h.of_le hq)]
  exact rounded_mono hq total.toNat

end Fraction

/-- `LatencyHistogram`. -/
structure LatencyHistogram where
  buckets : Fin 1024 → UInt64

namespace LatencyHistogram

def empty : LatencyHistogram := ⟨fun _ => 0⟩

/-- `bucket_for`. -/
def bucketFor (latencyNs : UInt64) : Fin 1024 :=
  if latencyNs = 0 then 0 else ⟨min (64 - clzll latencyNs) 1023, by omega⟩

/-- `record`. -/
def record (h : LatencyHistogram) (latencyNs : UInt64) : LatencyHistogram :=
  ⟨Function.update h.buckets (bucketFor latencyNs) (h.buckets (bucketFor latencyNs) + 1)⟩

theorem record_self (h : LatencyHistogram) (x : UInt64) :
    (h.record x).buckets (bucketFor x) = h.buckets (bucketFor x) + 1 :=
  Function.update_self _ _ _

theorem record_of_ne {h : LatencyHistogram} {x : UInt64} {i : Fin 1024} (hi : i ≠ bucketFor x) :
    (h.record x).buckets i = h.buckets i :=
  Function.update_of_ne hi _ _

/-- What `percentile` returns at bucket `i`. -/
def lowerBound (i : Fin 1024) : UInt64 :=
  1 <<< UInt64.ofNat (if 0 < i.val then i.val - 1 else 0)

/-- The first loop of `percentile`, over the buckets that are left. -/
def sum (h : LatencyHistogram) : List (Fin 1024) → UInt64 → UInt64
  | [], total => total
  | i :: is, total => h.sum is (total + h.buckets i)

/-- The second loop of `percentile`. -/
def scan (h : LatencyHistogram) (target : UInt64) : List (Fin 1024) → UInt64 → UInt64
  | [], _ => 0
  | i :: is, count =>
    if target ≤ count + h.buckets i then lowerBound i
    else h.scan target is (count + h.buckets i)

/-- `percentile`, with `target` a function of the total. -/
def percentileWith (h : LatencyHistogram) (target : UInt64 → UInt64) : UInt64 :=
  let total := h.sum (List.finRange 1024) 0
  if total = 0 then 0 else h.scan (target total) (List.finRange 1024) 0

/-- `percentile`. -/
def percentile (h : LatencyHistogram) (p : Fraction) : UInt64 := h.percentileWith p.target

def p50 (h : LatencyHistogram) : UInt64 :=
  h.percentile ⟨1, 1, by decide, by decide⟩

/-- The double nearest to 0.95, as the two below are those nearest to 0.99 and 0.999. -/
def p95 (h : LatencyHistogram) : UInt64 :=
  h.percentile ⟨4278419646001971, 52, by decide, by decide⟩

def p99 (h : LatencyHistogram) : UInt64 :=
  h.percentile ⟨4458563631096791, 52, by decide, by decide⟩

def p999 (h : LatencyHistogram) : UInt64 :=
  h.percentile ⟨8998192055486251, 53, by decide, by decide⟩

variable {h : LatencyHistogram} {x : UInt64} {i : Fin 1024} {is : List (Fin 1024)}

/-- The bucket of a latency is its bit length. -/
theorem bucketFor_val (x : UInt64) : (bucketFor x).val = x.toNat.size := by
  by_cases h0 : x = 0
  · subst h0
    rfl
  · have hx : x.toNat ≠ 0 := by
      intro h
      exact h0 (UInt64.toNat_inj.mp h)
    have hlog : x.toNat.log2 < 64 := (Nat.log2_lt hx).mpr x.toNat_lt
    have hsize : x.toNat.size = x.toNat.log2 + 1 := by
      apply Nat.le_antisymm
      · exact Nat.size_le.mpr Nat.lt_log2_self
      · exact Nat.lt_size.mpr (Nat.log2_self_le hx)
    unfold bucketFor clzll
    rw [if_neg h0, hsize]
    change min (64 - (63 - x.toNat.log2)) 1023 = _
    omega

theorem bucketFor_le (x : UInt64) : (bucketFor x).val ≤ 64 := by
  rw [bucketFor_val, Nat.size_le]
  exact x.toNat_lt

theorem lowerBound_toNat (hi : i.val ≤ 64) : (lowerBound i).toNat = 2^(i.val - 1) := by
  unfold lowerBound
  have hshift : (if 0 < i.val then i.val - 1 else 0) = i.val - 1 := by
    split_ifs <;> omega
  rw [hshift, UInt64.toNat_shiftLeft, UInt64.toNat_ofNat', UInt64.toNat_one,
    Nat.shiftLeft_eq, Nat.one_mul, Nat.mod_eq_of_lt (show i.val - 1 < 2^64 by omega),
    Nat.mod_eq_of_lt (show i.val - 1 < 64 by omega)]
  exact Nat.mod_eq_of_lt (Nat.pow_lt_pow_right (by decide) (by omega))

/-- The counts in the buckets `is`. -/
def loads (h : LatencyHistogram) (is : List (Fin 1024)) : Nat :=
  (is.map fun i => (h.buckets i).toNat).sum

@[simp] theorem loads_nil (h : LatencyHistogram) : h.loads [] = 0 := rfl

@[simp] theorem loads_cons (h : LatencyHistogram) (i : Fin 1024) (is : List (Fin 1024)) :
    h.loads (i :: is) = (h.buckets i).toNat + h.loads is := rfl

theorem sum_toNat (h : LatencyHistogram) (is : List (Fin 1024)) (total : UInt64) :
    (h.sum is total).toNat = (total.toNat + h.loads is) % 2^64 := by
  induction is generalizing total with
  | nil => exact (Nat.mod_eq_of_lt total.toNat_lt).symm
  | cons i is ih =>
    rw [sum, ih, loads_cons, UInt64.toNat_add, Nat.mod_add_mod, Nat.add_assoc]

theorem load_le_loads (h : LatencyHistogram) (hi : i ∈ is) :
    (h.buckets i).toNat ≤ h.loads is := by
  induction is with
  | nil => simp at hi
  | cons j is ih =>
    rw [loads_cons]
    rcases List.mem_cons.mp hi with rfl | hi
    · omega
    · have := ih hi
      omega

/-- A record is counted in its own bucket and no other. -/
theorem loads_record (hnd : is.Nodup) (hlt : (h.buckets (bucketFor x)).toNat + 1 < 2^64) :
    (h.record x).loads is = h.loads is + if bucketFor x ∈ is then 1 else 0 := by
  induction is with
  | nil => rfl
  | cons i is ih =>
    obtain ⟨hi, hnd⟩ := List.nodup_cons.mp hnd
    have hrest := ih hnd
    rw [loads_cons, loads_cons, hrest]
    by_cases he : i = bucketFor x
    · have hone : ((h.record x).buckets i).toNat = (h.buckets i).toNat + 1 := by
        rw [he, record_self, UInt64.toNat_add]
        exact Nat.mod_eq_of_lt hlt
      rw [hone, if_neg (by rwa [← he]), if_pos (by simp [he])]
      omega
    · have hmem : bucketFor x ∈ i :: is ↔ bucketFor x ∈ is := by simp [Ne.symm he]
      rw [record_of_ne he]
      simp only [hmem]
      omega

end LatencyHistogram

end Jellybean.Telemetry
