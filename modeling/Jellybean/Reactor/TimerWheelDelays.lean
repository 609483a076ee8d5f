import Jellybean.Reactor.TimerWheelRuns

namespace Jellybean.Reactor

/-! What an `advance` can run, for a wheel in any state. -/

namespace TimerWheel

variable {β : Type} {w : TimerWheel β} {target : Nat}

theorem mem_tick_slots (hc : w.currentTick + 1 < 2^64) {e : TimerEntry β} {i : Nat}
    (he : e ∈ w.tick.1.slots i) : e ∈ w.slots i := by
  rw [tick_eq hc] at he
  dsimp only at he
  rw [Function.update_apply] at he
  split_ifs at he with hi
  · rw [hi]
    exact List.mem_of_mem_filter he
  · exact he

theorem mem_tick_fired (hc : w.currentTick + 1 < 2^64) {cb : β} (h : cb ∈ w.tick.2) :
    ∃ i, ∃ e ∈ w.slots i, e.callback = cb ∧ e.expiresTick ≤ w.currentTick + 1 := by
  rw [tick_eq hc] at h
  obtain ⟨e, he, hcb⟩ := List.mem_map.mp h
  obtain ⟨hmem, hexp⟩ := List.mem_filter.mp he
  exact ⟨_, e, hmem, hcb, by simpa using hexp⟩

theorem mem_advanceLoop_slots (ht : target < 2^64) (n : Nat) {e : TimerEntry β} {i : Nat}
    (he : e ∈ (advanceLoop target n w).1.slots i) : e ∈ w.slots i := by
  induction n generalizing w with
  | zero => exact he
  | succ n ih =>
    unfold advanceLoop at he
    split_ifs at he with hlt
    · exact mem_tick_slots (by omega) (ih he)
    · exact he

/-- What fires has expired by the target. -/
theorem mem_advanceLoop_fired (ht : target < 2^64) (n : Nat) {cb : β}
    (h : cb ∈ (advanceLoop target n w).2) :
    ∃ i, ∃ e ∈ w.slots i, e.callback = cb ∧ e.expiresTick ≤ target := by
  induction n generalizing w with
  | zero => cases h
  | succ n ih =>
    unfold advanceLoop at h
    split_ifs at h with hlt
    · rcases List.mem_append.mp h with hnow | hlater
      · obtain ⟨i, e, he, hcb, hexp⟩ := mem_tick_fired (by omega) hnow
        exact ⟨i, e, he, hcb, by omega⟩
      · obtain ⟨i, e, he, hcb, hexp⟩ := ih hlater
        exact ⟨i, e, mem_tick_slots (by omega) he, hcb, hexp⟩
    · cases h

/-- The wheel stays in its bucket until the tick that runs it. -/
theorem advanceLoop_fires (ht : target < 2^64) (n : Nat) (hn : target - w.currentTick ≤ n)
    {e : TimerEntry β} (he : e ∈ w.slots (slotOf e.expiresTick))
    (hlow : w.currentTick < e.expiresTick) (hhigh : e.expiresTick ≤ target) :
    e.callback ∈ (advanceLoop target n w).2 := by
  induction n generalizing w with
  | zero => omega
  | succ n ih =>
    have hlt : w.currentTick < target := by omega
    have hc : w.currentTick + 1 < 2^64 := by omega
    have hcur := tick_currentTick hc
    unfold advanceLoop
    rw [if_pos hlt]
    apply List.mem_append.mpr
    by_cases hexp : e.expiresTick = w.currentTick + 1
    · left
      rw [tick_eq hc]
      apply List.mem_map_of_mem
      rw [List.mem_filter]
      rw [hexp] at he
      exact ⟨he, by simp [hexp]⟩
    · right
      apply ih
      · rw [hcur]
        omega
      · rw [tick_eq hc]
        dsimp only
        rw [Function.update_apply]
        split_ifs with hi
        · rw [List.mem_filter, ← hi]
          exact ⟨he, by simp; omega⟩
        · exact he
      · rw [hcur]
        omega

theorem advanceLoop_currentTick (ht : target < 2^64) (n : Nat) (hn : target - w.currentTick ≤ n) :
    (advanceLoop target n w).1.currentTick = max w.currentTick target := by
  induction n generalizing w with
  | zero => exact (max_eq_left (Nat.le_of_sub_eq_zero (Nat.le_zero.mp hn))).symm
  | succ n ih =>
    unfold advanceLoop
    split_ifs with hlt
    · have hcur := tick_currentTick (w := w) (by omega)
      have hrest := ih (w := w.tick.1) (by rw [hcur]; omega)
      rw [hcur] at hrest
      exact hrest.trans (by omega)
    · exact (max_eq_left (Nat.le_of_not_lt hlt)).symm

theorem mem_addTimer_slots {delayNs : Nat} {cb : β} {e : TimerEntry β} {i : Nat}
    (hw : w.currentTick + delayTicks delayNs < 2^64) (he : e ∈ (w.addTimer delayNs cb).slots i) :
    e ∈ w.slots i ∨ e = ⟨w.currentTick + delayTicks delayNs, cb⟩ := by
  unfold addTimer at he
  rw [Nat.mod_eq_of_lt hw] at he
  dsimp only at he
  rw [Function.update_apply] at he
  split_ifs at he with hi
  · rw [hi]
    rcases List.mem_append.mp he with he | he
    · exact .inl he
    · exact .inr (List.mem_singleton.mp he)
  · exact .inl he

theorem addTimer_mem_slots {delayNs : Nat} (cb : β)
    (hw : w.currentTick + delayTicks delayNs < 2^64) :
    ⟨w.currentTick + delayTicks delayNs, cb⟩ ∈
      (w.addTimer delayNs cb).slots (slotOf (w.currentTick + delayTicks delayNs)) := by
  unfold addTimer
  rw [Nat.mod_eq_of_lt hw]
  dsimp only
  rw [Function.update_self]
  exact List.mem_append_right _ (List.mem_singleton_self _)

end TimerWheel

/-- A call on the wheel; the baseline may be set again. -/
inductive WheelCall where
  | initializeAt (nowNs : Nat)
  | addTimer (delayNs : Nat)
  | advance (nowNs : Nat)
  deriving DecidableEq

def WheelCall.Valid : WheelCall → Prop
  | .initializeAt nowNs => nowNs < 2^64
  | .addTimer delayNs => delayNs < 2^64
  | .advance nowNs => nowNs < 2^64

/-- A wheel with what its caller knows. The callback of a timer is the number of its `add_timer`
among all calls. -/
structure TimedWheel where
  wheel : TimerWheel Nat
  calls : Nat
  /-- The time of the last `initialize` or effective `advance`. -/
  since : Option Nat
  /-- The callbacks that have run, each with the time given to its `advance`. -/
  fired : List (Nat × Nat)

namespace TimedWheel

def new : TimedWheel := ⟨.new, 0, none, []⟩

def perform (s : TimedWheel) : WheelCall → TimedWheel
  | .initializeAt nowNs =>
    { s with wheel := s.wheel.initializeAt nowNs, calls := s.calls + 1, since := some nowNs }
  | .addTimer delayNs =>
    { s with wheel := s.wheel.addTimer delayNs s.calls, calls := s.calls + 1 }
  | .advance nowNs =>
    let r := s.wheel.advance nowNs
    { wheel := r.1
      calls := s.calls + 1
      since := if s.wheel.currentTick < nowNs / tickNs then some nowNs else s.since
      fired := s.fired ++ r.2.map fun cb => (cb, nowNs) }

def performAll (s : TimedWheel) (calls : List WheelCall) : TimedWheel := calls.foldl perform s

/-- The wheel stands at the tick of `since` and knows earlier calls only. -/
structure Inv (s : TimedWheel) : Prop where
  bound : s.wheel.currentTick ≤ (2^64 - 1) / tickNs
  current : ∀ n, s.since = some n → s.wheel.currentTick = n / tickNs
  entries : ∀ i, ∀ e ∈ s.wheel.slots i, e.callback < s.calls
  fired : ∀ f ∈ s.fired, f.1 < s.calls ∧ f.2 < 2^64

/-- The timer of call `k` runs at its tick or later. -/
structure Keeps (k tick : Nat) (s : TimedWheel) : Prop where
  added : k < s.calls
  entries : ∀ i, ∀ e ∈ s.wheel.slots i, e.callback = k → e.expiresTick = tick
  fired : ∀ f ∈ s.fired, f.1 = k → tick ≤ f.2 / tickNs

variable {s : TimedWheel} {call : WheelCall} {k tick delayNs n₀ : Nat}

theorem Inv.new : Inv new where
  bound := Nat.zero_le _
  current := by simp [TimedWheel.new]
  entries := by simp [TimedWheel.new, TimerWheel.new]
  fired := by simp [TimedWheel.new]

theorem Inv.noWrap (h : Inv s) (hd : delayNs < 2^64) :
    s.wheel.currentTick + delayTicks delayNs < 2^64 :=
  Reactor.noWrap h.bound hd

theorem target_lt {nowNs : Nat} (hn : nowNs < 2^64) : nowNs / tickNs < 2^64 :=
  (Nat.div_le_self _ _).trans_lt hn

theorem advance_currentTick (w : TimerWheel Nat) {nowNs : Nat} (hn : nowNs < 2^64) :
    (w.advance nowNs).1.currentTick = max w.currentTick (nowNs / tickNs) :=
  TimerWheel.advanceLoop_currentTick (target_lt hn) _ le_rfl

theorem Inv.perform (h : Inv s) (hv : call.Valid) : Inv (s.perform call) := by
  cases call with
  | initializeAt nowNs =>
    refine ⟨tick_lt hv, ?_, ?_, ?_⟩
    · intro n hn
      cases hn
      rfl
    · intro i e he
      exact Nat.lt_succ_of_lt (h.entries i e he)
    · intro f hf
      exact (h.fired f hf).imp_left Nat.lt_succ_of_lt
  | addTimer delayNs =>
    refine ⟨h.bound, h.current, ?_, ?_⟩
    · intro i e he
      rcases TimerWheel.mem_addTimer_slots (h.noWrap hv) he with he | rfl
      · exact Nat.lt_succ_of_lt (h.entries i e he)
      · exact Nat.lt_succ_self _
    · intro f hf
      exact (h.fired f hf).imp_left Nat.lt_succ_of_lt
  | advance nowNs =>
    have hcur := advance_currentTick s.wheel hv
    refine ⟨?_, ?_, ?_, ?_⟩
    · change (s.wheel.advance nowNs).1.currentTick ≤ _
      rw [hcur]
      exact max_le h.bound (tick_lt hv)
    · intro n hn
      change (s.wheel.advance nowNs).1.currentTick = _
      change (if _ then _ else _) = _ at hn
      rw [hcur]
      split_ifs at hn with hlt
      · cases hn
        exact max_eq_right hlt.le
      · rw [← h.current n hn]
        exact max_eq_left (Nat.le_of_not_lt hlt)
    · intro i e he
      have he := TimerWheel.mem_advanceLoop_slots (target_lt hv) _ he
      exact Nat.lt_succ_of_lt (h.entries i e he)
    · intro f hf
      rcases List.mem_append.mp hf with hf | hf
      · exact (h.fired f hf).imp_left Nat.lt_succ_of_lt
      · obtain ⟨cb, hcb, rfl⟩ := List.mem_map.mp hf
        obtain ⟨i, e, he, rfl, -⟩ := TimerWheel.mem_advanceLoop_fired (target_lt hv) _ hcb
        exact ⟨Nat.lt_succ_of_lt (h.entries i e he), hv⟩

theorem Inv.performAll (h : Inv s) {calls : List WheelCall} (hv : ∀ c ∈ calls, c.Valid) :
    Inv (s.performAll calls) := by
  induction calls generalizing s with
  | nil => exact h
  | cons call calls ih =>
    have hfirst := h.perform (hv call List.mem_cons_self)
    exact ih hfirst fun c hc => hv c (List.mem_cons_of_mem _ hc)

/-- A new timer. -/
theorem Inv.keeps (h : Inv s) (hd : delayNs < 2^64) :
    Keeps s.calls (s.wheel.currentTick + delayTicks delayNs) (s.perform (.addTimer delayNs)) := by
  refine ⟨Nat.lt_succ_self _, ?_, ?_⟩
  · intro i e he hk
    rcases TimerWheel.mem_addTimer_slots (h.noWrap hd) he with he | rfl
    · have := h.entries i e he
      omega
    · rfl
  · intro f hf hk
    have := (h.fired f hf).1
    omega

theorem Keeps.perform (hk : Keeps k tick s) (h : Inv s) (hv : call.Valid) :
    Keeps k tick (s.perform call) := by
  have hadded := hk.added
  cases call with
  | initializeAt nowNs => exact ⟨Nat.lt_succ_of_lt hadded, hk.entries, hk.fired⟩
  | addTimer delayNs =>
    refine ⟨Nat.lt_succ_of_lt hadded, ?_, hk.fired⟩
    intro i e he hcb
    rcases TimerWheel.mem_addTimer_slots (h.noWrap hv) he with he | rfl
    · exact hk.entries i e he hcb
    · exact absurd hcb hadded.ne'
  | advance nowNs =>
    refine ⟨Nat.lt_succ_of_lt hadded, ?_, ?_⟩
    · intro i e he hcb
      exact hk.entries i e (TimerWheel.mem_advanceLoop_slots (target_lt hv) _ he) hcb
    · intro f hf hcb
      rcases List.mem_append.mp hf with hf | hf
      · exact hk.fired f hf hcb
      · obtain ⟨cb, hmem, rfl⟩ := List.mem_map.mp hf
        obtain ⟨i, e, he, hek, hexp⟩ := TimerWheel.mem_advanceLoop_fired (target_lt hv) _ hmem
        rwa [hk.entries i e he (hek.trans hcb)] at hexp

theorem Keeps.performAll (hk : Keeps k tick s) (h : Inv s) {calls : List WheelCall}
    (hv : ∀ c ∈ calls, c.Valid) : Keeps k tick (s.performAll calls) := by
  induction calls generalizing s with
  | nil => exact hk
  | cons call calls ih =>
    have hfirst := hv call List.mem_cons_self
    exact ih (hk.perform h hfirst) (h.perform hfirst) fun c hc => hv c (List.mem_cons_of_mem _ hc)

/-- The first time of the tick at which a timer expires. -/
def expiryNs (n₀ delayNs : Nat) : Nat := (n₀ / tickNs + delayTicks delayNs) * tickNs

/-- An `advance` to that time runs it. -/
theorem Inv.fires_at_expiry (h : Inv s) (hs : s.since = some n₀) (hd : delayNs < 2^64)
    (hlt : expiryNs n₀ delayNs < 2^64) :
    (s.calls, expiryNs n₀ delayNs) ∈
      ((s.perform (.addTimer delayNs)).perform (.advance (expiryNs n₀ delayNs))).fired := by
  have hw := h.noWrap hd
  have htarget : expiryNs n₀ delayNs / tickNs = s.wheel.currentTick + delayTicks delayNs := by
    rw [h.current n₀ hs]
    exact Nat.mul_div_cancel _ (by decide)
  have hpos := delayTicks_pos delayNs
  have hcb := TimerWheel.advanceLoop_fires (target_lt hlt) _ le_rfl
    (TimerWheel.addTimer_mem_slots s.calls hw)
    (by change s.wheel.currentTick < s.wheel.currentTick + _; omega) htarget.ge
  apply List.mem_append_right
  exact List.mem_map_of_mem hcb

/-- What is lost by rounding the time and the delay down to ticks is no more than what is gained
where the delay is raised to one tick; or no time of 64 bits reaches the expiry. -/
def RoundsSafely (n₀ delayNs : Nat) : Prop :=
  n₀ % tickNs = 0 ∧ delayNs % tickNs = 0 ∨ delayNs < tickNs ∧ n₀ % tickNs + delayNs ≤ tickNs ∨
    2^64 ≤ expiryNs n₀ delayNs

theorem roundsSafely_iff (n₀ delayNs : Nat) :
    RoundsSafely n₀ delayNs ↔
      n₀ + delayNs ≤ expiryNs n₀ delayNs ∨ 2^64 ≤ expiryNs n₀ delayNs := by
  unfold RoundsSafely expiryNs
  rw [delayTicks_eq]
  simp only [tickNs]
  omega

/-- After any calls, a new timer never runs early, whatever calls follow, exactly if the
roundings allow it. -/
theorem never_early_iff (before : List WheelCall) (hbefore : ∀ c ∈ before, c.Valid)
    (n₀ delayNs : Nat) (hd : delayNs < 2^64) :
    let s := TimedWheel.new.performAll before
    s.since = some n₀ →
    ((∀ after : List WheelCall, (∀ c ∈ after, c.Valid) →
        ∀ n₁, (s.calls, n₁) ∈ ((s.perform (.addTimer delayNs)).performAll after).fired →
          n₀ + delayNs ≤ n₁) ↔
      RoundsSafely n₀ delayNs) := by
  intro s hs
  have h : Inv s := Inv.new.performAll hbefore
  rw [roundsSafely_iff]
  constructor
  · intro hnever
    by_contra hnot
    obtain ⟨hearly, hlt⟩ := not_or.mp hnot
    apply hearly
    apply hnever [.advance (expiryNs n₀ delayNs)]
    · intro c hc
      rw [List.mem_singleton.mp hc]
      exact Nat.lt_of_not_le hlt
    · exact h.fires_at_expiry hs hd (Nat.lt_of_not_le hlt)
  · intro hsafe after hafter n₁ hfired
    have hvalid : (WheelCall.addTimer delayNs).Valid := hd
    have hnew := h.perform hvalid
    have htick := ((h.keeps hd).performAll hnew hafter).fired _ hfired rfl
    have hn₁ := ((hnew.performAll hafter).fired _ hfired).2
    dsimp only at htick hn₁
    rw [h.current n₀ hs, Nat.le_div_iff_mul_le (by decide)] at htick
    change expiryNs n₀ delayNs ≤ n₁ at htick
    omega

/-- Whole milliseconds on both sides. -/
theorem never_early_iff_wholeTicks :
    let s := new.performAll [.initializeAt 5000000]
    let t := (s.perform (.addTimer 2000000)).performAll [.advance 6999999, .advance 7300000]
    (1, 7300000) ∈ t.fired ∧ 5000000 + 2000000 ≤ 7300000 ∧ (1, 6999999) ∉ t.fired := by
  intro s t
  have hbefore : ∀ c ∈ [WheelCall.initializeAt 5000000], c.Valid := by simp [WheelCall.Valid]
  have hafter : ∀ c ∈ [WheelCall.advance 6999999, .advance 7300000], c.Valid := by
    simp [WheelCall.Valid]
  have hnever := (never_early_iff [.initializeAt 5000000] hbefore 5000000 2000000 (by decide)
    rfl).mpr (.inl (by decide)) _ hafter
  have hfired : (1, 7300000) ∈ t.fired := by decide +kernel
  exact ⟨hfired, hnever _ hfired, fun h => absurd (hnever _ h) (by decide)⟩

/-- One nanosecond after it was set to two milliseconds less one. -/
theorem early_timer :
    let s := new.performAll [.initializeAt 999999]
    let t := (s.perform (.addTimer 1999999)).performAll [.advance 1000000]
    s.since = some 999999 ∧ (1, 1000000) ∈ t.fired ∧ ¬ 999999 + 1999999 ≤ 1000000 := by
  decide +kernel

end TimedWheel

end Jellybean.Reactor
