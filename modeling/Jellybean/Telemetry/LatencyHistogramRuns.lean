import Jellybean.Framework.System
import Jellybean.Telemetry.LatencyHistogram

namespace Jellybean.Telemetry.LatencyHistogram

/-- Where a call of `percentile` stands, with the iterations its loops have left. -/
inductive Pc where
  | summing (rest : List (Fin 1024)) (total : UInt64)
  | scanning (rest : List (Fin 1024)) (total target count : UInt64)
  | returned (total result : UInt64)

/-- A histogram, the number of records made in it and a call of `percentile` on it. -/
structure Call where
  hist : LatencyHistogram
  recorded : Nat
  pc : Pc

inductive Action where
  | record (latencyNs : UInt64)
  | advance

/-- One step of `percentile`: a load of a bucket, or the code between the loops. -/
def advance (p : Fraction) (s : Call) : Option Pc :=
  match s.pc with
  | .summing (i :: is) total => some (.summing is (total + s.hist.buckets i))
  | .summing [] total =>
    some (if total = 0 then .returned total 0
      else .scanning (List.finRange 1024) total (p.target total) 0)
  | .scanning (i :: is) total target count =>
    some (if target ≤ count + s.hist.buckets i then .returned total (lowerBound i)
      else .scanning is total target (count + s.hist.buckets i))
  | .scanning [] total _ _ => some (.returned total 0)
  | .returned _ _ => none

def step (p : Fraction) (s : Call) : Action → Option Call
  | .record latencyNs =>
    some { s with hist := s.hist.record latencyNs, recorded := s.recorded + 1 }
  | .advance => (advance p s).map fun pc => { s with pc := pc }

/-- A call of `percentile` among any number of calls of `record`. -/
def calls (p : Fraction) : System Call Action where
  init s := s = ⟨empty, 0, .summing (List.finRange 1024) 0⟩
  step := step p

variable {p q : Fraction} {h : LatencyHistogram} {s t : Call} {n N : Nat} {x : UInt64}
  {rest is : List (Fin 1024)} {total target count result : UInt64}

/-- The histogram has all of `n` records, in the buckets that a latency can have. -/
structure Counts (h : LatencyHistogram) (n : Nat) : Prop where
  loads_eq : h.loads (List.finRange 1024) = n
  high : ∀ i : Fin 1024, 64 < i.val → h.buckets i = 0

theorem counts_empty : Counts empty 0 := by
  have hz : ∀ is : List (Fin 1024), empty.loads is = 0 := by
    intro is
    induction is with
    | nil => rfl
    | cons i is ih => simpa [empty] using ih
  exact ⟨hz _, fun _ _ => rfl⟩

theorem Counts.no_wrap (hc : Counts h n) (hn : n + 1 < 2^64) (i : Fin 1024) :
    (h.buckets i).toNat + 1 < 2^64 := by
  have hle := h.load_le_loads (List.mem_finRange i)
  rw [hc.loads_eq] at hle
  omega

theorem Counts.record (hc : Counts h n) (hn : n + 1 < 2^64) (x : UInt64) :
    Counts (h.record x) (n + 1) := by
  constructor
  · rw [loads_record (List.nodup_finRange _) (hc.no_wrap hn _), hc.loads_eq,
      if_pos (List.mem_finRange _)]
  · intro i hi
    have hle := bucketFor_le x
    have hne : i ≠ bucketFor x := by
      intro he
      rw [he] at hi
      omega
    rw [record_of_ne hne]
    exact hc.high i hi

theorem Counts.loads_high (hc : Counts h n) (hi : ∀ i ∈ is, 64 < i.val) : h.loads is = 0 := by
  induction is with
  | nil => rfl
  | cons i is ih =>
    have hz := hc.high i (hi i (by simp))
    have hrest := ih fun j hj => hi j (by simp [hj])
    rw [loads_cons, hz, hrest]
    rfl

theorem Counts.loads_le (hc : Counts h n) (hs : is <:+ List.finRange 1024) : h.loads is ≤ n := by
  obtain ⟨pre, hpre⟩ := hs
  rw [← hc.loads_eq, ← hpre]
  unfold loads
  rw [List.map_append, List.sum_append]
  omega

/-- A record adds to what is left of a loop at most what it adds to the whole. -/
theorem Counts.record_suffix (hc : Counts h n) (hn : n + 1 < 2^64)
    (hs : is <:+ List.finRange 1024) (x : UInt64) :
    h.loads is ≤ (h.record x).loads is ∧ (h.record x).loads is ≤ h.loads is + 1 := by
  rw [loads_record ((List.nodup_finRange _).sublist hs.sublist) (hc.no_wrap hn _)]
  split_ifs <;> omega

theorem suffix_high {i : Fin 1024} (hs : i :: is <:+ List.finRange 1024) (hi : 64 < i.val) :
    ∀ j ∈ i :: is, 64 < j.val := by
  have hsorted := (List.pairwise_lt_finRange 1024).sublist hs.sublist
  intro j hj
  rcases List.mem_cons.mp hj with rfl | hj
  · exact hi
  · have hlt := List.rel_of_pairwise_cons hsorted hj
    exact lt_trans hi hlt

/-- What the variables of a call say about the buckets it has yet to load: the records of the
first loop are all in `count` or still ahead of the second. -/
def PcOk (h : LatencyHistogram) (n : Nat) : Pc → Prop
  | .summing rest total => rest <:+ List.finRange 1024 ∧ total.toNat + h.loads rest ≤ n
  | .scanning rest total target count =>
    rest <:+ List.finRange 1024 ∧ total ≠ 0 ∧ target ≤ total ∧
      total.toNat ≤ count.toNat + h.loads rest ∧ count.toNat + h.loads rest ≤ n ∧
      (rest = List.finRange 1024 ∨ count < target)
  | .returned total result => total = 0 ∧ result = 0 ∨ total ≠ 0 ∧ ∃ k < 64, result.toNat = 2^k

/-- The second loop cannot run out: all that it counted would be below the target, which is
at most the total. -/
theorem PcOk.scanning_ne_nil (hp : PcOk h n (.scanning rest total target count)) : rest ≠ [] := by
  obtain ⟨_, _, htarget, htotal, _, hfirst⟩ := hp
  intro hnil
  rw [hnil, loads_nil] at htotal
  rw [UInt64.le_iff_toNat_le] at htarget
  rcases hfirst with hall | hlt
  · rw [hnil, List.finRange_succ] at hall
    cases hall
  · rw [UInt64.lt_iff_toNat_lt] at hlt
    omega

structure Inv (s : Call) : Prop where
  counts : Counts s.hist s.recorded
  pc : PcOk s.hist s.recorded s.pc

theorem Inv.initial : Inv ⟨empty, 0, .summing (List.finRange 1024) 0⟩ :=
  ⟨counts_empty, List.suffix_refl _, by rw [counts_empty.loads_eq]; rfl⟩

theorem Inv.record (hi : Inv s) (hn : s.recorded + 1 < 2^64) (x : UInt64) :
    Inv { s with hist := s.hist.record x, recorded := s.recorded + 1 } := by
  obtain ⟨hc, hpc⟩ := hi
  refine ⟨hc.record hn x, ?_⟩
  change PcOk (s.hist.record x) (s.recorded + 1) s.pc
  cases hs : s.pc with
  | summing rest total =>
    rw [hs] at hpc
    obtain ⟨hsuf, hle⟩ := hpc
    have hadd := hc.record_suffix hn hsuf x
    exact ⟨hsuf, by omega⟩
  | scanning rest total target count =>
    rw [hs] at hpc
    obtain ⟨hsuf, hpos, htarget, htotal, hle, hfirst⟩ := hpc
    have hadd := hc.record_suffix hn hsuf x
    exact ⟨hsuf, hpos, htarget, by omega, by omega, hfirst⟩
  | returned total result =>
    rw [hs] at hpc
    exact hpc

theorem load_toNat {i : Fin 1024} (hle : count.toNat + h.loads (i :: is) ≤ n) (hn : n < 2^64) :
    (count + h.buckets i).toNat = count.toNat + (h.buckets i).toNat := by
  rw [loads_cons] at hle
  rw [UInt64.toNat_add]
  exact Nat.mod_eq_of_lt (by omega)

/-- The second loop stops at a bucket that some latency can have. -/
theorem Counts.stop_le {i : Fin 1024} (hc : Counts h n)
    (hsuf : i :: is <:+ List.finRange 1024) (hle : target.toNat ≤ count.toNat + h.loads (i :: is))
    (hfirst : i :: is = List.finRange 1024 ∨ count < target) : i.val ≤ 64 := by
  by_contra hi
  push Not at hi
  rw [hc.loads_high (suffix_high hsuf hi)] at hle
  rcases hfirst with hall | hlt
  · rw [List.finRange_succ] at hall
    obtain ⟨h0, _⟩ := List.cons.inj hall
    rw [h0] at hi
    exact absurd hi (by decide)
  · rw [UInt64.lt_iff_toNat_lt] at hlt
    omega

theorem Inv.advance {pc : Pc} (hi : Inv s) (hf : p.Faithful s.recorded)
    (hn : s.recorded < 2^64) (ha : advance p s = some pc) : Inv { s with pc := pc } := by
  obtain ⟨hc, hpc⟩ := hi
  refine ⟨hc, ?_⟩
  change PcOk s.hist s.recorded pc
  unfold LatencyHistogram.advance at ha
  split at ha
  next i is total hs =>
    rw [hs] at hpc
    obtain ⟨hsuf, hle⟩ := hpc
    obtain rfl := Option.some.inj ha
    refine ⟨(List.suffix_cons _ _).trans hsuf, ?_⟩
    rw [load_toNat hle hn, Nat.add_assoc]
    exact hle
  next total hs =>
    rw [hs] at hpc
    obtain ⟨_, hle⟩ := hpc
    rw [loads_nil] at hle
    obtain rfl := Option.some.inj ha
    by_cases h0 : total = 0
    · rw [if_pos h0]
      exact .inl ⟨h0, rfl⟩
    · rw [if_neg h0]
      have hft : p.Faithful total.toNat := hf.imp_right fun hlt => by omega
      refine ⟨List.suffix_refl _, h0, Fraction.target_le hft, ?_, ?_, .inl rfl⟩
      all_goals
        rw [hc.loads_eq, UInt64.toNat_zero]
        omega
  next i is total target count hs =>
    rw [hs] at hpc
    obtain ⟨hsuf, hpos, htarget, htotal, hle, hfirst⟩ := hpc
    rw [UInt64.le_iff_toNat_le] at htarget
    obtain rfl := Option.some.inj ha
    have hload := load_toNat hle hn
    by_cases hstop : target ≤ count + s.hist.buckets i
    · have h64 := hc.stop_le hsuf (htarget.trans htotal) hfirst
      rw [if_pos hstop]
      exact .inr ⟨hpos, i.val - 1, by omega, lowerBound_toNat h64⟩
    · rw [if_neg hstop]
      rw [loads_cons] at htotal hle
      refine ⟨(List.suffix_cons _ _).trans hsuf, hpos, ?_, ?_, ?_, .inr (UInt64.not_le.mp hstop)⟩
      · rwa [UInt64.le_iff_toNat_le]
      · omega
      · omega
  next total target count hs =>
    rw [hs] at hpc
    exact absurd rfl hpc.scanning_ne_nil
  next hs => cases ha

theorem Inv.step {a : Action} (hi : Inv s) (hf : p.Faithful N) (hN : N < 2^64)
    (ht : (calls p).step s a = some t) (hle : t.recorded ≤ N) : Inv t := by
  cases a with
  | record x =>
    obtain rfl := Option.some.inj ht
    have hlt : s.recorded + 1 ≤ N := hle
    exact hi.record (by omega) x
  | advance =>
    obtain ⟨pc, hpc, rfl⟩ := Option.map_eq_some_iff.mp ht
    have hlt : s.recorded ≤ N := hle
    exact hi.advance (hf.imp_right fun h => by omega) (by omega) hpc

theorem recorded_le {a : Action} (ht : (calls p).step s a = some t) :
    s.recorded ≤ t.recorded := by
  cases a with
  | record x =>
    obtain rfl := Option.some.inj ht
    exact Nat.le_succ _
  | advance =>
    obtain ⟨pc, _, rfl⟩ := Option.map_eq_some_iff.mp ht
    exact Nat.le_refl _

/-- A state predicate that holds initially and is kept while at most `N` records are made. -/
theorem invariant_upTo {P : Call → Prop}
    (hi : P ⟨empty, 0, .summing (List.finRange 1024) 0⟩)
    (hs : ∀ s a t, P s → (calls p).step s a = some t → t.recorded ≤ N → P t)
    (h : (calls p).Reachable s) (hle : s.recorded ≤ N) : P s := by
  have hinv : s.recorded ≤ N → P s := by
    apply h.invariant (P := fun s => s.recorded ≤ N → P s)
    · intro s hinit _
      rw [show s = _ from hinit]
      exact hi
    · intro s a t ih ht hlt
      exact hs s a t (ih ((recorded_le ht).trans hlt)) ht hlt
  exact hinv hle

theorem Inv.reachable (hf : p.Faithful N) (hN : N < 2^64) (h : (calls p).Reachable s)
    (hle : s.recorded ≤ N) : Inv s :=
  invariant_upTo Inv.initial (fun _ _ _ hi ht hlt => hi.step hf hN ht hlt) h hle

theorem Counts.reachable (hN : N < 2^64) (h : (calls p).Reachable s) (hle : s.recorded ≤ N) :
    Counts s.hist s.recorded := by
  apply invariant_upTo (P := fun s => Counts s.hist s.recorded) counts_empty _ h hle
  intro s a t hc ht hlt
  cases a with
  | record x =>
    obtain rfl := Option.some.inj ht
    have hle : s.recorded + 1 ≤ N := hlt
    exact hc.record (by omega) x
  | advance =>
    obtain ⟨pc, _, rfl⟩ := Option.map_eq_some_iff.mp ht
    exact hc

theorem Counts.sum_toNat (hc : Counts h n) (hn : n < 2^64) :
    (h.sum (List.finRange 1024) 0).toNat = n := by
  rw [LatencyHistogram.sum_toNat, hc.loads_eq, UInt64.toNat_zero, Nat.zero_add]
  exact Nat.mod_eq_of_lt hn

theorem Counts.scan_reaches (hc : Counts h n) (hn : n < 2^64)
    (hle : count.toNat + h.loads is ≤ n) (hlt : count < target)
    (hreach : target.toNat ≤ count.toNat + h.loads is) :
    ∃ i ∈ is, i.val ≤ 64 ∧ h.scan target is count = lowerBound i := by
  rw [UInt64.lt_iff_toNat_lt] at hlt
  induction is generalizing count with
  | nil =>
    rw [loads_nil] at hreach
    omega
  | cons i is ih =>
    have hload := load_toNat hle hn
    rw [loads_cons] at hle hreach
    rw [scan]
    by_cases hstop : target ≤ count + h.buckets i
    · have h64 : i.val ≤ 64 := by
        by_contra hi
        have hz := hc.high i (by omega)
        rw [UInt64.le_iff_toNat_le, hload, hz, UInt64.toNat_zero] at hstop
        omega
      exact ⟨i, by simp, h64, if_pos hstop⟩
    · rw [if_neg hstop]
      have hlt' := UInt64.lt_iff_toNat_lt.mp (UInt64.not_le.mp hstop)
      obtain ⟨j, hj, hrest⟩ := ih (by omega) hlt' (by omega)
      exact ⟨j, by simp [hj], hrest⟩

theorem Counts.scan_mono {target' : UInt64} (hc : Counts h n) (hn : n < 2^64)
    (hsuf : is <:+ List.finRange 1024) (hle : count.toNat + h.loads is ≤ n)
    (htarget : target ≤ target') (hreach : target'.toNat ≤ count.toNat + h.loads is) :
    h.scan target is count ≤ h.scan target' is count := by
  induction is generalizing count with
  | nil => exact UInt64.le_refl _
  | cons i is ih =>
    have hload := load_toNat hle hn
    rw [loads_cons] at hle hreach
    rw [scan, scan]
    by_cases hstop' : target' ≤ count + h.buckets i
    · rw [if_pos hstop', if_pos (UInt64.le_trans htarget hstop')]
      exact UInt64.le_refl _
    · rw [if_neg hstop']
      have hlt := UInt64.not_le.mp hstop'
      have hle' : (count + h.buckets i).toNat + h.loads is ≤ n := by omega
      have hreach' : target'.toNat ≤ (count + h.buckets i).toNat + h.loads is := by omega
      by_cases hstop : target ≤ count + h.buckets i
      · rw [if_pos hstop]
        obtain ⟨j, hj, h64, hscan⟩ := hc.scan_reaches hn hle' hlt hreach'
        have hsorted := (List.pairwise_lt_finRange 1024).sublist hsuf.sublist
        have hij : i.val < j.val := List.rel_of_pairwise_cons hsorted hj
        rw [hscan, UInt64.le_iff_toNat_le, lowerBound_toNat h64, lowerBound_toNat (by omega)]
        exact Nat.pow_le_pow_right (by decide) (by omega)
      · rw [if_neg hstop]
        exact ih ((List.suffix_cons _ _).trans hsuf) hle' hreach'

theorem Counts.percentile_mono (hc : Counts h n) (hn : n < 2^64) (hf : p.Faithful n)
    (hq : q.value ≤ p.value) : h.percentile q ≤ h.percentile p := by
  have hsum := hc.sum_toNat hn
  rw [← hsum] at hf
  have hle := Fraction.target_le hf
  unfold percentile percentileWith
  dsimp only
  by_cases h0 : h.sum (List.finRange 1024) 0 = 0
  · rw [if_pos h0, if_pos h0]
    exact UInt64.le_refl _
  · rw [if_neg h0, if_neg h0]
    rw [UInt64.le_iff_toNat_le, hsum] at hle
    apply hc.scan_mono hn (List.suffix_refl _) _ (Fraction.target_mono hf hq)
    · rw [hc.loads_eq, UInt64.toNat_zero]
      omega
    · rw [hc.loads_eq, UInt64.toNat_zero]
      omega

/-- A call that no record interrupts computes `percentile`. -/
theorem solo_sum (hs : (calls p).Reachable ⟨h, n, .summing is total⟩) :
    (calls p).Reachable ⟨h, n, .summing [] (h.sum is total)⟩ := by
  induction is generalizing total with
  | nil => exact hs
  | cons i is ih =>
    rw [sum]
    exact ih (hs.next (a := .advance) rfl)

theorem solo_scan (hs : (calls p).Reachable ⟨h, n, .scanning is total target count⟩) :
    (calls p).Reachable ⟨h, n, .returned total (h.scan target is count)⟩ := by
  induction is generalizing count with
  | nil => exact hs.next (a := .advance) rfl
  | cons i is ih =>
    have hnext := hs.next (a := .advance) rfl
    rw [scan]
    dsimp only at hnext
    by_cases hstop : target ≤ count + h.buckets i
    · rw [if_pos hstop] at hnext ⊢
      exact hnext
    · rw [if_neg hstop] at hnext ⊢
      exact ih hnext

theorem solo_percentile
    (hs : (calls p).Reachable ⟨h, n, .summing (List.finRange 1024) 0⟩) :
    (calls p).Reachable ⟨h, n, .returned (h.sum (List.finRange 1024) 0) (h.percentile p)⟩ := by
  have hnext := (solo_sum hs).next (a := .advance) rfl
  unfold percentile percentileWith
  dsimp only at hnext ⊢
  by_cases h0 : h.sum (List.finRange 1024) 0 = 0
  · rw [if_pos h0] at hnext ⊢
    exact hnext
  · rw [if_neg h0] at hnext ⊢
    exact solo_scan hnext

def Returned (s : Call) : Prop := ∃ total result, s.pc = .returned total result

/-- The second loop finds its target before the buckets end, and the call returns a power of
two, or 0 when the first loop counted no record. -/
def Sound (s : Call) : Prop :=
  match s.pc with
  | .summing _ _ => True
  | .scanning rest _ _ _ => rest ≠ []
  | .returned total result =>
    (result = 0 → total = 0) ∧ (result ≠ 0 → ∃ k < 64, result.toNat = 2^k)

theorem Inv.sound (hi : Inv s) : Sound s := by
  have hpc := hi.pc
  unfold Sound
  cases hs : s.pc with
  | summing rest total => trivial
  | scanning rest total target count =>
    rw [hs] at hpc
    exact hpc.scanning_ne_nil
  | returned total result =>
    rw [hs] at hpc
    rcases hpc with ⟨htotal, hresult⟩ | ⟨_, k, hk, hresult⟩
    · exact ⟨fun _ => htotal, fun hne => absurd hresult hne⟩
    · refine ⟨?_, fun _ => ⟨k, hk, hresult⟩⟩
      intro h0
      have hpos := Nat.two_pow_pos k
      rw [h0, UInt64.toNat_zero] at hresult
      omega

/-- A bound on the steps a call has left. -/
def remaining : Pc → Nat
  | .summing rest _ => rest.length + 1026
  | .scanning rest _ _ _ => rest.length + 1
  | .returned _ _ => 0

theorem remaining_advance {pc : Pc} (ha : advance p s = some pc) :
    remaining pc < remaining s.pc := by
  unfold advance at ha
  cases hs : s.pc with
  | summing rest total =>
    rw [hs] at ha
    cases rest with
    | nil =>
      obtain rfl := Option.some.inj ha
      split_ifs
      · simp [remaining]
      · simp [remaining]
    | cons i is =>
      obtain rfl := Option.some.inj ha
      simp [remaining]
  | scanning rest total target count =>
    rw [hs] at ha
    cases rest with
    | nil =>
      obtain rfl := Option.some.inj ha
      simp [remaining]
    | cons i is =>
      obtain rfl := Option.some.inj ha
      split_ifs
      · simp [remaining]
      · simp [remaining]
  | returned total result =>
    rw [hs] at ha
    cases ha

/-- Whatever was recorded in between, a call returns by its own steps. -/
theorem returns (s : Call) : (calls p).CanReach (· = .advance) Returned s := by
  apply System.CanReach.of_variant (Q := fun _ => True) (fun s => remaining s.pc) _ trivial
  intro s _
  cases ha : advance p s with
  | none =>
    left
    unfold advance at ha
    split at ha
    all_goals try cases ha
    next total result hs => exact ⟨total, result, hs⟩
  | some pc =>
    right
    refine ⟨.advance, { s with pc := pc }, rfl, ?_, trivial, remaining_advance ha⟩
    change (advance p s).map _ = _
    rw [ha]
    rfl

theorem recorded_reachable (p : Fraction) (n : Nat) :
    (calls p).Reachable
      ⟨(fun h => h.record 1)^[n] empty, n, .summing (List.finRange 1024) 0⟩ := by
  induction n with
  | zero => exact .init rfl
  | succ n ih =>
    rw [Function.iterate_succ_apply']
    exact ih.next (a := .record 1) rfl

theorem scan_misses (hn : n < target.toNat) (hle : count.toNat + h.loads is ≤ n) :
    h.scan target is count = 0 := by
  induction is generalizing count with
  | nil => rfl
  | cons i is ih =>
    have hload := load_toNat hle (hn.trans target.toNat_lt)
    rw [loads_cons] at hle
    have hmiss : ¬target ≤ count + h.buckets i := by
      rw [UInt64.le_iff_toNat_le]
      omega
    rw [scan, if_neg hmiss]
    exact ih (by omega)

/-- At `p = 1` the total of 2^53 + 3 records, converted to a double, is one more. -/
theorem target_one (hp : ¬p.value < 1) (ht : total.toNat = 2^53 + 3) :
    (p.target total).toNat = 2^53 + 4 := by
  have hm : p.mantissa = 2^p.exponent := by
    have hge := mt (Fraction.value_lt_one_iff p).mpr hp
    have hle := p.le_one
    omega
  have hround : roundBits 53 (2^53 + 3) = 2^53 + 4 := by decide +kernel
  have hexact : roundBits 53 (2^53 + 4) = 2^53 + 4 := by decide +kernel
  unfold Fraction.target
  rw [hm, ht, hround, roundBits_mul_two_pow, hexact, Nat.mul_div_cancel _ (Nat.two_pow_pos _)]
  rfl

theorem misses_target (hp : ¬p.value < 1) (hn : n = 2^53 + 3) :
    ∃ h total, total.toNat = n ∧ (calls p).Reachable ⟨h, n, .returned total 0⟩ := by
  obtain ⟨h, hreach⟩ : ∃ h, (calls p).Reachable ⟨h, n, .summing (List.finRange 1024) 0⟩ :=
    ⟨_, recorded_reachable p n⟩
  have hc : Counts h n := Counts.reachable (N := n) (by omega) hreach le_rfl
  have hsum := hc.sum_toNat (by omega)
  have hzero : h.percentile p = 0 := by
    unfold percentile percentileWith
    dsimp only
    rw [if_neg (by intro h0; rw [h0, UInt64.toNat_zero] at hsum; omega)]
    apply scan_misses (n := n)
    · rw [target_one hp (hsum.trans hn)]
      omega
    · rw [hc.loads_eq, UInt64.toNat_zero]
      omega
  have hsolo := solo_percentile hreach
  rw [hzero] at hsolo
  exact ⟨h, _, hsum, hsolo⟩

theorem not_sound (ht : total.toNat ≠ 0) : ¬Sound ⟨h, n, .returned total 0⟩ := by
  intro hs
  rw [hs.1 rfl] at ht
  exact ht rfl

/-- `percentile(1.0)` after 2^53 + 3 records: it counts them all and returns 0. -/
theorem percentile_one_misses :
    ∃ h total, total.toNat = 2^53 + 3 ∧
      (calls ⟨1, 0, by decide, by decide⟩).Reachable ⟨h, 2^53 + 3, .returned total 0⟩ ∧
      ¬Sound ⟨h, 2^53 + 3, .returned total 0⟩ := by
  have hone : ¬Fraction.value ⟨1, 0, by decide, by decide⟩ < 1 := by
    rw [Fraction.value_lt_one_iff]
    decide
  obtain ⟨h, total, htotal, hreach⟩ := misses_target hone rfl
  exact ⟨h, total, htotal, hreach, not_sound (by omega)⟩

/-- `percentile` among concurrent calls of `record`, fewer than 2^64 in all: exactly when the
total is never rounded upwards past the records themselves does the second loop always find
its target, so that the result is a power of two, and is the result monotone up to `p`. -/
theorem percentile_concurrent_iff (p : Fraction) {N : Nat} (hN : N < 2^64) :
    ((∀ s, (calls p).Reachable s → s.recorded ≤ N →
        Sound s ∧ (calls p).CanReach (· = .advance) Returned s ∧
          ∀ q : Fraction, q.value ≤ p.value → s.hist.percentile q ≤ s.hist.percentile p) ↔
      p.Faithful N) ∧
    ∀ s, (calls p).Reachable s → s.recorded ≤ N →
      s.hist.p50 ≤ s.hist.p95 ∧ s.hist.p95 ≤ s.hist.p99 ∧ s.hist.p99 ≤ s.hist.p999 := by
  refine ⟨⟨?_, ?_⟩, ?_⟩
  · intro hall
    by_contra hf
    unfold Fraction.Faithful at hf
    push Not at hf
    obtain ⟨h, total, htotal, hreach⟩ := misses_target (not_lt.mpr hf.1) rfl
    exact not_sound (by omega) (hall _ hreach hf.2).1
  · intro hf s hs hle
    have hfs : p.Faithful s.recorded := hf.imp_right fun hlt => by omega
    refine ⟨(Inv.reachable hf hN hs hle).sound, returns s, ?_⟩
    intro q hq
    exact (Counts.reachable hN hs hle).percentile_mono (by omega) hfs hq
  · intro s hs hle
    have hc := Counts.reachable hN hs hle
    have hn : s.recorded < 2^64 := by omega
    refine ⟨?_, ?_, ?_⟩
    all_goals
      apply hc.percentile_mono hn
      · left
        rw [Fraction.value_lt_one_iff]
        decide
      · rw [Fraction.value_le_iff]
        decide

theorem percentile_concurrent_iff_one :
    Sound ⟨empty.record 1000, 1, .summing (List.finRange 1024) 0⟩ ∧
      (calls ⟨1, 0, by decide, by decide⟩).CanReach (· = .advance) Returned
        ⟨empty.record 1000, 1, .summing (List.finRange 1024) 0⟩ ∧
      ∀ q : Fraction, q.value ≤ Fraction.value ⟨1, 0, by decide, by decide⟩ →
        (empty.record 1000).percentile q ≤
          (empty.record 1000).percentile ⟨1, 0, by decide, by decide⟩ :=
  (percentile_concurrent_iff ⟨1, 0, by decide, by decide⟩ (show 1 < 2^64 by decide)).1.mpr
    (.inr (by decide)) _ (System.Reachable.next (.init rfl) (a := .record 1000) rfl) le_rfl

end Jellybean.Telemetry.LatencyHistogram
