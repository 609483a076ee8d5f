import Jellybean.Reactor.TimerWheel

namespace Jellybean.Reactor

/-- A call on the wheel after `initialize`. The callback of a timer is the position of its
`add_timer` in the run. -/
inductive WheelOp where
  | addTimer (delayNs : Nat)
  | advance (nowNs : Nat)
  deriving DecidableEq

/-- The argument is a `uint64_t`. -/
def WheelOp.Valid : WheelOp → Prop
  | .addTimer delayNs => delayNs < 2^64
  | .advance nowNs => nowNs < 2^64

def perform (k : Nat) (w : TimerWheel Nat) : WheelOp → TimerWheel Nat × List Nat
  | .addTimer delayNs => (w.addTimer delayNs k, [])
  | .advance nowNs => w.advance nowNs

section

variable (n₀ : Nat) (ops : List WheelOp)

/-- The wheel before the operation at position `m`. -/
def wheelAt : Nat → TimerWheel Nat
  | 0 => TimerWheel.new.initializeAt n₀
  | m + 1 =>
    match ops[m]? with
    | some op => (perform m (wheelAt m) op).1
    | none => wheelAt m

/-- The timers that the operation at position `m` fires, in order. -/
def firedAt (m : Nat) : List Nat :=
  match ops[m]? with
  | some op => (perform m (wheelAt n₀ ops m) op).2
  | none => []

/-- The tick at which the timer added at position `k` is to expire. -/
def expiryAt (k : Nat) : Nat :=
  match ops[k]? with
  | some (.addTimer delayNs) => (wheelAt n₀ ops k).currentTick + max 1 (delayNs / tickNs)
  | _ => 0

/-- The timer of position `k` was added before position `m`, and no `advance` in between has
reached `t`, its expiry. -/
structure Pending (m k t : Nat) : Prop where
  before : k < m
  timer : ∃ delayNs, ops[k]? = some (.addTimer delayNs)
  expiry : t = expiryAt n₀ ops k
  notReached : ∀ j nowNs, k < j → j < m → ops[j]? = some (.advance nowNs) → nowNs / tickNs < t

end

variable {n₀ : Nat} {ops : List WheelOp}

theorem Pending.mono {m k t : Nat} (h : Pending n₀ ops m k t)
    (hm : ∀ nowNs, ops[m]? = some (.advance nowNs) → nowNs / tickNs < t) :
    Pending n₀ ops (m + 1) k t := by
  refine ⟨h.before.trans (Nat.lt_succ_self m), h.timer, h.expiry, ?_⟩
  intro j nowNs hkj hjm hop
  rcases Nat.lt_succ_iff_lt_or_eq.mp hjm with hj | rfl
  · exact h.notReached j nowNs hkj hj hop
  · exact hm nowNs hop

theorem Pending.pred {m k t : Nat} (h : Pending n₀ ops (m + 1) k t) (hk : k ≠ m) :
    Pending n₀ ops m k t := by
  have := h.before
  refine ⟨by omega, h.timer, h.expiry, ?_⟩
  intro j nowNs hkj hjm
  exact h.notReached j nowNs hkj (by omega)

/-- The wheel holds the pending timers, those of one tick in the order of their positions. -/
structure Tracks (n₀ : Nat) (ops : List WheelOp) (m : Nat) (w : TimerWheel Nat) : Prop where
  wound : w.Wound
  bound : w.currentTick ≤ (2^64 - 1) / tickNs
  sorted : ∀ t, (w.due t).Pairwise (· < ·)
  mem_due : ∀ t k, k ∈ w.due t ↔ Pending n₀ ops m k t

theorem tick_lt {x : Nat} (hx : x < 2^64) : x / tickNs ≤ (2^64 - 1) / tickNs :=
  Nat.div_le_div_right (Nat.le_sub_one_of_lt hx)

theorem noWrap {c delayNs : Nat} (hc : c ≤ (2^64 - 1) / tickNs) (hd : delayNs < 2^64) :
    c + delayTicks delayNs < 2^64 := by
  have := tick_lt hd
  rw [delayTicks_eq]
  simp only [tickNs] at *
  omega

theorem wheelAt_succ {m : Nat} {op : WheelOp} (hop : ops[m]? = some op) :
    wheelAt n₀ ops (m + 1) = (perform m (wheelAt n₀ ops m) op).1 := by
  rw [wheelAt, hop]

theorem Tracks.start (hn : n₀ < 2^64) : Tracks n₀ ops 0 (wheelAt n₀ ops 0) := by
  refine ⟨?_, tick_lt hn, ?_, ?_⟩
  · exact ⟨by simp [wheelAt, TimerWheel.initializeAt, TimerWheel.new],
      by simp [wheelAt, TimerWheel.initializeAt, TimerWheel.new]⟩
  · intro t
    exact List.Pairwise.nil
  · intro t k
    constructor
    · intro hk
      cases hk
    · intro hp
      exact absurd hp.before (Nat.not_lt_zero k)

/-- An `add_timer` puts its own position at the end of the timers of its tick. -/
theorem Tracks.addTimer {m delayNs : Nat} (h : Tracks n₀ ops m (wheelAt n₀ ops m))
    (hop : ops[m]? = some (.addTimer delayNs)) (hd : delayNs < 2^64) :
    Tracks n₀ ops (m + 1) (wheelAt n₀ ops (m + 1)) := by
  have hw := noWrap h.bound hd
  have hexp : expiryAt n₀ ops m = (wheelAt n₀ ops m).currentTick + delayTicks delayNs := by
    rw [expiryAt, hop, delayTicks_eq]
  have hnadv : ∀ nowNs, ops[m]? ≠ some (.advance nowNs) := by
    intro nowNs hadv
    rw [hop] at hadv
    cases hadv
  have hdue : ∀ t, (wheelAt n₀ ops (m + 1)).due t =
      if t = expiryAt n₀ ops m then (wheelAt n₀ ops m).due t ++ [m]
      else (wheelAt n₀ ops m).due t := by
    intro t
    rw [wheelAt_succ hop]
    have hag := TimerWheel.addTimer_agenda m hw
    change Agenda.due ((wheelAt n₀ ops m).addTimer delayNs m).agenda t = _
    rw [hag, ← hexp]
    simp only [Agenda.add, Function.update_apply]
    split_ifs with ht
    · rw [ht]
      rfl
    · rfl
  have hpend : ∀ t k, Pending n₀ ops (m + 1) k t ↔
      Pending n₀ ops m k t ∨ k = m ∧ t = expiryAt n₀ ops m := by
    intro t k
    constructor
    · intro hp
      by_cases hk : k = m
      · exact .inr ⟨hk, hk ▸ hp.expiry⟩
      · exact .inl (hp.pred hk)
    · rintro (hp | ⟨rfl, rfl⟩)
      · exact hp.mono fun nowNs hadv => absurd hadv (hnadv nowNs)
      · refine ⟨Nat.lt_succ_self k, ⟨delayNs, hop⟩, rfl, ?_⟩
        intro j nowNs hkj hjk
        omega
  refine ⟨?_, ?_, ?_, ?_⟩
  · rw [wheelAt_succ hop]
    exact h.wound.addTimer m hw
  · rw [wheelAt_succ hop]
    exact h.bound
  · intro t
    rw [hdue]
    split_ifs
    · rw [List.pairwise_append]
      refine ⟨h.sorted t, List.pairwise_singleton _ _, ?_⟩
      intro k hk x hx
      rw [List.mem_singleton.mp hx]
      exact ((h.mem_due t k).mp hk).before
    · exact h.sorted t
  · intro t k
    rw [hdue, hpend, ← h.mem_due t k]
    split_ifs with ht
    · simp [ht]
    · simp [ht]

/-- An `advance` takes off the timers whose ticks it passes. -/
theorem Tracks.advance {m nowNs : Nat} (h : Tracks n₀ ops m (wheelAt n₀ ops m))
    (hop : ops[m]? = some (.advance nowNs)) (hn : nowNs < 2^64) :
    Tracks n₀ ops (m + 1) (wheelAt n₀ ops (m + 1)) := by
  obtain ⟨hwound, hag, -⟩ := h.wound.advance hn
  have hwheel : wheelAt n₀ ops (m + 1) = ((wheelAt n₀ ops m).advance nowNs).1 := wheelAt_succ hop
  rw [← hwheel] at hwound hag
  have hdue : ∀ t, (wheelAt n₀ ops (m + 1)).due t =
      if (wheelAt n₀ ops m).currentTick < t ∧ t ≤ nowNs / tickNs then []
      else (wheelAt n₀ ops m).due t := by
    intro t
    change Agenda.due (wheelAt n₀ ops (m + 1)).agenda t = _
    rw [hag, Agenda.advance_due]
    rfl
  refine ⟨hwound, ?_, ?_, ?_⟩
  · change Agenda.now (wheelAt n₀ ops (m + 1)).agenda ≤ _
    rw [hag]
    exact max_le h.bound (tick_lt hn)
  · intro t
    rw [hdue]
    split_ifs
    · exact List.Pairwise.nil
    · exact h.sorted t
  · intro t k
    rw [hdue]
    constructor
    · intro hk
      split_ifs at hk with hpass
      · cases hk
      · have hp := (h.mem_due t k).mp hk
        apply hp.mono
        intro now' hop'
        rw [hop] at hop'
        cases hop'
        have hfuture : (wheelAt n₀ ops m).currentTick < t := by
          by_contra hle
          rw [h.wound.due_eq_nil (Nat.le_of_not_lt hle)] at hk
          cases hk
        omega
    · intro hp
      have hkm : k ≠ m := by
        rintro rfl
        obtain ⟨d, hd⟩ := hp.timer
        rw [hop] at hd
        cases hd
      have hp' := hp.pred hkm
      have hlt := hp.notReached m nowNs hp'.before (Nat.lt_succ_self m) hop
      rw [if_neg (by omega)]
      exact (h.mem_due t k).mpr hp'

theorem tracks (hn : n₀ < 2^64) (hops : ∀ op ∈ ops, op.Valid) (m : Nat) :
    Tracks n₀ ops m (wheelAt n₀ ops m) := by
  induction m with
  | zero => exact Tracks.start hn
  | succ m ih =>
    cases hop : ops[m]? with
    | none =>
      have hsame : wheelAt n₀ ops (m + 1) = wheelAt n₀ ops m := by rw [wheelAt, hop]
      rw [hsame]
      refine ⟨ih.wound, ih.bound, ih.sorted, ?_⟩
      intro t k
      rw [ih.mem_due]
      constructor
      · intro hp
        exact hp.mono fun nowNs hadv => by rw [hop] at hadv; cases hadv
      · intro hp
        apply hp.pred
        rintro rfl
        obtain ⟨d, hd⟩ := hp.timer
        rw [hop] at hd
        cases hd
    | some op =>
      have hvalid := hops op (List.mem_of_getElem? hop)
      cases op with
      | addTimer delayNs => exact ih.addTimer hop hvalid
      | advance nowNs => exact ih.advance hop hvalid

/-- What an `advance` fires. -/
theorem mem_firedAt {m k nowNs : Nat} (h : Tracks n₀ ops m (wheelAt n₀ ops m))
    (hop : ops[m]? = some (.advance nowNs)) (hn : nowNs < 2^64) :
    k ∈ firedAt n₀ ops m ↔ ∃ t ≤ nowNs / tickNs, Pending n₀ ops m k t := by
  obtain ⟨-, -, hfired⟩ := h.wound.advance hn
  have hf : firedAt n₀ ops m = ((wheelAt n₀ ops m).agenda.passed (nowNs / tickNs)).flatMap
      (wheelAt n₀ ops m).due := by
    rw [firedAt, hop]
    exact hfired
  rw [hf, List.mem_flatMap]
  constructor
  · rintro ⟨t, ht, hk⟩
    exact ⟨t, (Agenda.mem_passed.mp ht).2, (h.mem_due t k).mp hk⟩
  · rintro ⟨t, ht, hp⟩
    have hk := (h.mem_due t k).mpr hp
    refine ⟨t, Agenda.mem_passed.mpr ⟨?_, ht⟩, hk⟩
    by_contra hle
    rw [h.wound.due_eq_nil (Nat.le_of_not_lt hle)] at hk
    cases hk

/-- Earlier expiry first, then earlier insertion. -/
def FiresBefore (n₀ : Nat) (ops : List WheelOp) (k k' : Nat) : Prop :=
  expiryAt n₀ ops k < expiryAt n₀ ops k' ∨ expiryAt n₀ ops k = expiryAt n₀ ops k' ∧ k < k'

theorem firedAt_pairwise {m : Nat} (h : Tracks n₀ ops m (wheelAt n₀ ops m))
    (hops : ∀ op ∈ ops, op.Valid) : (firedAt n₀ ops m).Pairwise (FiresBefore n₀ ops) := by
  unfold firedAt
  cases hop : ops[m]? with
  | none => exact List.Pairwise.nil
  | some op =>
    cases op with
    | addTimer delayNs => exact List.Pairwise.nil
    | advance nowNs =>
      obtain ⟨-, -, hfired⟩ := h.wound.advance (hops _ (List.mem_of_getElem? hop))
      change ((wheelAt n₀ ops m).advance nowNs).2.Pairwise _
      rw [hfired]
      apply List.pairwise_flatMap.mpr
      refine ⟨?_, ?_⟩
      · intro t _
        apply (h.sorted t).imp_of_mem
        intro k k' hk hk' hlt
        have hp := (h.mem_due t k).mp hk
        have hp' := (h.mem_due t k').mp hk'
        exact .inr ⟨hp.expiry.symm.trans hp'.expiry, hlt⟩
      · have hsorted : ((wheelAt n₀ ops m).agenda.passed (nowNs / tickNs)).Pairwise (· < ·) :=
          List.pairwise_lt_range'
        apply hsorted.imp
        intro t t' hlt k hk k' hk'
        have hp := (h.mem_due t k).mp hk
        have hp' := (h.mem_due t' k').mp hk'
        left
        rw [← hp.expiry, ← hp'.expiry]
        exact hlt

theorem firedAt_nodup {m : Nat} (h : Tracks n₀ ops m (wheelAt n₀ ops m))
    (hops : ∀ op ∈ ops, op.Valid) : (firedAt n₀ ops m).Nodup := by
  apply (firedAt_pairwise h hops).imp
  rintro k k' hb rfl
  rcases hb with hlt | ⟨-, hlt⟩ <;> omega

/-- Position `m` is the first `advance` after position `k` that reaches the expiry of `k`. -/
def FirstReach (n₀ : Nat) (ops : List WheelOp) (k m : Nat) : Prop :=
  k < m ∧ (∃ nowNs, ops[m]? = some (.advance nowNs) ∧ expiryAt n₀ ops k ≤ nowNs / tickNs) ∧
    ∀ j nowNs, k < j → j < m → ops[j]? = some (.advance nowNs) → nowNs / tickNs < expiryAt n₀ ops k

theorem mem_firedAt_iff {m k : Nat} (h : Tracks n₀ ops m (wheelAt n₀ ops m))
    (hops : ∀ op ∈ ops, op.Valid) :
    k ∈ firedAt n₀ ops m ↔ (∃ delayNs, ops[k]? = some (.addTimer delayNs)) ∧
      FirstReach n₀ ops k m := by
  constructor
  · intro hk
    cases hop : ops[m]? with
    | none => simp [firedAt, hop] at hk
    | some op =>
      cases op with
      | addTimer delayNs => simp [firedAt, hop, perform] at hk
      | advance nowNs =>
        obtain ⟨t, ht, hp⟩ :=
          (mem_firedAt h hop (hops _ (List.mem_of_getElem? hop))).mp hk
        have he := hp.expiry
        subst he
        exact ⟨hp.timer, hp.before, ⟨nowNs, hop, ht⟩, hp.notReached⟩
  · rintro ⟨htimer, hkm, ⟨nowNs, hop, hle⟩, hnot⟩
    apply (mem_firedAt h hop (hops _ (List.mem_of_getElem? hop))).mpr
    exact ⟨_, hle, hkm, htimer, rfl, hnot⟩

/-- A timer fires once, in the first `advance` that reaches its tick; one `advance` fires by expiry
and insertion; no tick wraps; and a stop on the way changes nothing. -/
theorem timers_fire (n₀ : Nat) (ops : List WheelOp) (hn : n₀ < 2^64)
    (hops : ∀ op ∈ ops, op.Valid) :
    (∀ k delayNs, ops[k]? = some (.addTimer delayNs) →
      expiryAt n₀ ops k = (wheelAt n₀ ops k).currentTick + max 1 (delayNs / tickNs) ∧
      expiryAt n₀ ops k < 2^64 ∧
      ∀ m, (FirstReach n₀ ops k m → (firedAt n₀ ops m).count k = 1) ∧
        (¬ FirstReach n₀ ops k m → (firedAt n₀ ops m).count k = 0)) ∧
    (∀ m, ∀ k ∈ firedAt n₀ ops m, ∃ delayNs, ops[k]? = some (.addTimer delayNs)) ∧
    (∀ m, (firedAt n₀ ops m).Pairwise (FiresBefore n₀ ops)) ∧
    (∀ m, (wheelAt n₀ ops m).currentTick < 2^64 - 1) ∧
    ∀ m a b, a ≤ b → b < 2^64 →
      let w := wheelAt n₀ ops m
      (w.advance a).2 ++ ((w.advance a).1.advance b).2 = (w.advance b).2 ∧
        ((w.advance a).1.advance b).1.agenda = (w.advance b).1.agenda := by
  have htr := tracks hn hops
  refine ⟨?_, ?_, ?_, ?_, ?_⟩
  · intro k delayNs hop
    have hexp : expiryAt n₀ ops k =
        (wheelAt n₀ ops k).currentTick + max 1 (delayNs / tickNs) := by
      rw [expiryAt, hop]
    refine ⟨hexp, ?_, ?_⟩
    · rw [hexp, ← delayTicks_eq]
      exact noWrap (htr k).bound (hops _ (List.mem_of_getElem? hop))
    · intro m
      have hnd := firedAt_nodup (htr m) hops
      have hmem := mem_firedAt_iff (k := k) (htr m) hops
      refine ⟨?_, ?_⟩
      · intro hfirst
        exact List.count_eq_one_of_mem hnd (hmem.mpr ⟨⟨delayNs, hop⟩, hfirst⟩)
      · intro hfirst
        apply List.count_eq_zero_of_not_mem
        intro hk
        exact hfirst (hmem.mp hk).2
  · intro m k hk
    exact ((mem_firedAt_iff (htr m) hops).mp hk).1
  · intro m
    exact firedAt_pairwise (htr m) hops
  · intro m
    have := (htr m).bound
    simp only [tickNs] at this
    omega
  · intro m a b hab hb w
    have ha : a < 2^64 := by omega
    obtain ⟨hwa, haga, hfa⟩ := (htr m).wound.advance ha
    obtain ⟨-, hagb, hfb⟩ := (htr m).wound.advance hb
    obtain ⟨-, hagab, hfab⟩ := hwa.advance hb
    rw [haga] at hagab hfab
    obtain ⟨h1, h2⟩ := Agenda.advance_advance (a := w.agenda)
      (Nat.div_le_div_right (c := tickNs) hab)
    exact ⟨by rw [hfa, hfab, hfb, h2], by rw [hagab, hagb, h1]⟩

/-- Two timers in one bucket, a revolution apart, and a clock that goes back. -/
def twoRevolutions : List WheelOp :=
  [.addTimer 517000000, .addTimer 5000000, .addTimer 5999999, .advance 4000000, .advance 3000000,
    .advance 5000000, .advance 600000000]

theorem timers_fire_twoRevolutions :
    (firedAt 999 twoRevolutions 5).count 1 = 1 ∧ (firedAt 999 twoRevolutions 5).count 0 = 0 ∧
      firedAt 999 twoRevolutions 5 = [1, 2] := by
  have hops : ∀ op ∈ twoRevolutions, op.Valid := by
    simp [twoRevolutions, WheelOp.Valid]
  obtain ⟨htimer, -⟩ := timers_fire 999 twoRevolutions (by decide) hops
  refine ⟨((htimer 1 5000000 rfl).2.2 5).1 ?_, ((htimer 0 517000000 rfl).2.2 5).2 ?_, ?_⟩
  · refine ⟨by decide, ⟨5000000, rfl, by decide⟩, ?_⟩
    intro j nowNs hj hj' hop
    interval_cases j
    · cases hop
    · cases hop
      decide
    · cases hop
      decide
  · rintro ⟨-, ⟨nowNs, hop, hle⟩, -⟩
    cases hop
    exact absurd hle (by decide)
  · decide +kernel

end Jellybean.Reactor
