import Mathlib.Tactic

namespace Jellybean.Reactor

def slotCount : Nat := 512
def tickNs : Nat := 1000000

variable {β : Type}

structure TimerEntry (β : Type) where
  expiresTick : Nat
  callback : β
  deriving DecidableEq

/-- `slots_` is used at indices below `SLOTS` only. Ticks are `uint64_t`. -/
structure TimerWheel (β : Type) where
  slots : Nat → List (TimerEntry β)
  currentTick : Nat

/-- The bucket of a tick. -/
def slotOf (tick : Nat) : Nat := tick &&& (slotCount - 1)

/-- The delay in ticks, at least one. -/
def delayTicks (delayNs : Nat) : Nat :=
  let ticks := delayNs / tickNs
  if ticks = 0 then 1 else ticks

theorem delayTicks_eq (delayNs : Nat) : delayTicks delayNs = max 1 (delayNs / tickNs) := by
  unfold delayTicks
  dsimp only
  split_ifs with h
  · rw [h]
    rfl
  · exact (max_eq_right (Nat.one_le_iff_ne_zero.mpr h)).symm

theorem delayTicks_pos (delayNs : Nat) : 0 < delayTicks delayNs := by
  rw [delayTicks_eq]
  exact Nat.lt_of_lt_of_le Nat.one_pos (le_max_left _ _)

namespace TimerWheel

def new : TimerWheel β := ⟨fun _ => [], 0⟩

def addTimer (w : TimerWheel β) (delayNs : Nat) (cb : β) : TimerWheel β :=
  let expiresTick := (w.currentTick + delayTicks delayNs) % 2^64
  let slot := slotOf expiresTick
  { w with slots := Function.update w.slots slot (w.slots slot ++ [⟨expiresTick, cb⟩]) }

/-- `initialize`; the buckets stay as they are. -/
def initializeAt (w : TimerWheel β) (nowNs : Nat) : TimerWheel β :=
  { w with currentTick := nowNs / tickNs }

/-- One round of the loop of `advance`, with the callbacks it runs. `stable_partition` keeps the
order on both sides. -/
def tick (w : TimerWheel β) : TimerWheel β × List β :=
  let currentTick := (w.currentTick + 1) % 2^64
  let slot := slotOf currentTick
  let parts := (w.slots slot).partition fun e => e.expiresTick > currentTick
  (⟨Function.update w.slots slot parts.1, currentTick⟩, parts.2.map TimerEntry.callback)

/-- `while (current_tick_ < target_tick)`, for at most `n` rounds. -/
def advanceLoop (target : Nat) : Nat → TimerWheel β → TimerWheel β × List β
  | 0, w => (w, [])
  | n + 1, w =>
    if w.currentTick < target then
      let r := w.tick
      let rest := advanceLoop target n r.1
      (rest.1, r.2 ++ rest.2)
    else (w, [])

/-- The wheel afterwards and the callbacks in the order in which they ran. -/
def advance (w : TimerWheel β) (nowNs : Nat) : TimerWheel β × List β :=
  let target := nowNs / tickNs
  advanceLoop target (target - w.currentTick) w

end TimerWheel

/-! The purpose of the wheel: for every tick, the callbacks that expire then, in the order in
which they were added. -/

@[ext] structure Agenda (β : Type) where
  due : Nat → List β
  now : Nat

namespace Agenda

def add (a : Agenda β) (tick : Nat) (cb : β) : Agenda β :=
  { a with due := Function.update a.due tick (a.due tick ++ [cb]) }

/-- The ticks passed over on the way to `target`. -/
def passed (a : Agenda β) (target : Nat) : List Nat := List.range' (a.now + 1) (target - a.now)

def advance (a : Agenda β) (target : Nat) : Agenda β × List β :=
  (⟨fun t => if t ∈ a.passed target then [] else a.due t, max a.now target⟩,
    (a.passed target).flatMap a.due)

variable {a : Agenda β}

theorem mem_passed {target t : Nat} : t ∈ a.passed target ↔ a.now < t ∧ t ≤ target := by
  rw [passed, List.mem_range'_1]
  omega

theorem advance_of_le {target : Nat} (h : target ≤ a.now) : a.advance target = (a, []) := by
  have hp : a.passed target = [] := by
    rw [passed, Nat.sub_eq_zero_of_le h, List.range'_zero]
  simp [advance, hp, max_eq_left h]

theorem advance_due (target t : Nat) :
    (a.advance target).1.due t = if a.now < t ∧ t ≤ target then [] else a.due t := by
  simp only [advance, mem_passed]

/-- Stopping on the way makes no difference. -/
theorem advance_advance {x y : Nat} (h : x ≤ y) :
    ((a.advance x).1.advance y).1 = (a.advance y).1 ∧
      (a.advance x).2 ++ ((a.advance x).1.advance y).2 = (a.advance y).2 := by
  by_cases hx : x ≤ a.now
  · rw [advance_of_le hx]
    exact ⟨rfl, rfl⟩
  · have hnow : (a.advance x).1.now = x := max_eq_right (by omega)
    have hpass : a.passed x ++ (a.advance x).1.passed y = a.passed y := by
      unfold passed
      rw [hnow, show x + 1 = a.now + 1 + (x - a.now) by omega, List.range'_append_1]
      congr 1
      omega
    refine ⟨?_, ?_⟩
    · ext1
      · funext t
        rw [advance_due, hnow, advance_due, advance_due]
        split_ifs <;> first | rfl | omega
      · change max (a.advance x).1.now y = max a.now y
        omega
    · have hlater : ((a.advance x).1.passed y).flatMap (a.advance x).1.due =
          ((a.advance x).1.passed y).flatMap a.due := by
        apply List.flatMap_congr
        intro t ht
        rw [mem_passed, hnow] at ht
        rw [advance_due, if_neg (by omega)]
      change (a.passed x).flatMap a.due ++ ((a.advance x).1.passed y).flatMap (a.advance x).1.due =
        (a.passed y).flatMap a.due
      rw [hlater, ← List.flatMap_append, hpass]

end Agenda

/-- All timers of an expiry tick, which share a bucket with those of other revolutions. -/
def TimerWheel.due (w : TimerWheel β) (t : Nat) : List β :=
  ((w.slots (slotOf t)).filter fun e => e.expiresTick = t).map TimerEntry.callback

def TimerWheel.agenda (w : TimerWheel β) : Agenda β := ⟨w.due, w.currentTick⟩

/-- Timers expire in the future and sit in the bucket of their tick. -/
structure TimerWheel.Wound (w : TimerWheel β) : Prop where
  future : ∀ s, ∀ e ∈ w.slots s, w.currentTick < e.expiresTick
  hashed : ∀ s, ∀ e ∈ w.slots s, slotOf e.expiresTick = s

namespace TimerWheel

variable {w : TimerWheel β}

theorem Wound.due_eq_nil (h : w.Wound) {t : Nat} (ht : t ≤ w.currentTick) : w.due t = [] := by
  unfold due
  rw [List.map_eq_nil_iff, List.filter_eq_nil_iff]
  intro e he
  have := h.future _ e he
  simp only [decide_eq_true_eq]
  omega

theorem due_update {s : Nat} {l : List (TimerEntry β)} {c t : Nat} :
    due ⟨Function.update w.slots s l, c⟩ t =
      if slotOf t = s then (l.filter fun e => e.expiresTick = t).map TimerEntry.callback
      else w.due t := by
  simp only [due]
  by_cases hs : slotOf t = s
  · rw [if_pos hs, hs, Function.update_self]
  · rw [if_neg hs, Function.update_of_ne hs]

theorem addTimer_agenda {delayNs : Nat} (cb : β) (hw : w.currentTick + delayTicks delayNs < 2^64) :
    (w.addTimer delayNs cb).agenda = w.agenda.add (w.currentTick + delayTicks delayNs) cb := by
  unfold addTimer agenda Agenda.add
  dsimp only
  rw [Nat.mod_eq_of_lt hw]
  generalize w.currentTick + delayTicks delayNs = e
  congr 1
  funext t
  rw [due_update]
  by_cases ht : t = e
  · subst ht
    rw [if_pos rfl, Function.update_self, List.filter_append, List.map_append]
    simp [due]
  · rw [Function.update_of_ne ht]
    split_ifs with hs
    · have hne : ¬ e = t := fun h => ht h.symm
      rw [List.filter_append, ← hs]
      simp [due, hne]
    · rfl

theorem Wound.addTimer (h : w.Wound) {delayNs : Nat} (cb : β)
    (hw : w.currentTick + delayTicks delayNs < 2^64) : (w.addTimer delayNs cb).Wound := by
  have hpos := delayTicks_pos delayNs
  unfold TimerWheel.addTimer
  rw [Nat.mod_eq_of_lt hw]
  refine ⟨?_, ?_⟩
  · intro s e he
    dsimp only at he ⊢
    rw [Function.update_apply] at he
    split_ifs at he
    · rcases List.mem_append.mp he with he | he
      · exact h.future _ e he
      · rw [List.mem_singleton.mp he]
        dsimp only
        omega
    · exact h.future s e he
  · intro s e he
    dsimp only at he
    rw [Function.update_apply] at he
    split_ifs at he with hs
    · rcases List.mem_append.mp he with he | he
      · rw [hs]
        exact h.hashed _ e he
      · rw [List.mem_singleton.mp he, hs]
    · exact h.hashed s e he

/-! One tick runs exactly the timers of that tick. -/

theorem tick_eq (hc : w.currentTick + 1 < 2^64) :
    w.tick = (⟨Function.update w.slots (slotOf (w.currentTick + 1))
        ((w.slots (slotOf (w.currentTick + 1))).filter
          fun e => e.expiresTick > w.currentTick + 1), w.currentTick + 1⟩,
      ((w.slots (slotOf (w.currentTick + 1))).filter
        fun e => !decide (e.expiresTick > w.currentTick + 1)).map TimerEntry.callback) := by
  unfold tick
  dsimp only
  rw [Nat.mod_eq_of_lt hc, List.partition_eq_filter_filter]
  rfl

theorem Wound.tick_fired (h : w.Wound) (hc : w.currentTick + 1 < 2^64) :
    w.tick.2 = w.due (w.currentTick + 1) := by
  rw [tick_eq hc]
  unfold due
  dsimp only
  congr 1
  apply List.filter_congr
  intro e he
  have := h.future _ e he
  rw [← decide_not, decide_eq_decide]
  omega

theorem Wound.tick_due (h : w.Wound) (hc : w.currentTick + 1 < 2^64) (t : Nat) :
    w.tick.1.due t = if t = w.currentTick + 1 then [] else w.due t := by
  rw [tick_eq hc, due_update]
  split_ifs with hs ht ht
  · -- what stays in the bucket expires later
    rw [List.map_eq_nil_iff, List.filter_filter, List.filter_eq_nil_iff]
    intro e _
    simp only [Bool.and_eq_true, decide_eq_true_eq, not_and]
    omega
  · rw [List.filter_filter, ← hs]
    unfold due
    congr 1
    apply List.filter_congr
    intro e he
    have := h.future _ e he
    simp only [← Bool.decide_and, decide_eq_decide]
    omega
  · exact absurd (congrArg slotOf ht) hs
  · rfl

theorem Wound.tick (h : w.Wound) (hc : w.currentTick + 1 < 2^64) : w.tick.1.Wound := by
  rw [tick_eq hc]
  refine ⟨?_, ?_⟩
  · intro s e he
    dsimp only at he ⊢
    rw [Function.update_apply] at he
    split_ifs at he with hs
    · simpa using (List.mem_filter.mp he).2
    · have hlt := h.future s e he
      have hne : e.expiresTick ≠ w.currentTick + 1 := by
        intro heq
        rw [← h.hashed s e he, heq] at hs
        exact hs rfl
      omega
  · intro s e he
    dsimp only at he
    rw [Function.update_apply] at he
    split_ifs at he with hs
    · rw [hs]
      exact h.hashed _ e (List.mem_of_mem_filter he)
    · exact h.hashed s e he

theorem tick_currentTick (hc : w.currentTick + 1 < 2^64) :
    w.tick.1.currentTick = w.currentTick + 1 := by
  rw [tick_eq hc]

/-- The loop, by induction on the number of rounds: the agenda after the first round is that of
the start without its first tick. -/
theorem Wound.advanceLoop (h : w.Wound) {target : Nat} (n : Nat) (hn : target - w.currentTick ≤ n)
    (ht : target < 2^64) :
    (TimerWheel.advanceLoop target n w).1.Wound ∧
      (TimerWheel.advanceLoop target n w).1.agenda = (w.agenda.advance target).1 ∧
      (TimerWheel.advanceLoop target n w).2 = (w.agenda.advance target).2 := by
  induction n generalizing w with
  | zero =>
    have hle : target ≤ w.agenda.now := Nat.le_of_sub_eq_zero (Nat.le_zero.mp hn)
    rw [Agenda.advance_of_le hle]
    exact ⟨h, rfl, rfl⟩
  | succ n ih =>
    unfold TimerWheel.advanceLoop
    split_ifs with hlt
    · have hc : w.currentTick + 1 < 2^64 := by omega
      have hcur := tick_currentTick hc
      obtain ⟨hwound, hfst, hsnd⟩ := ih (h.tick hc) (by rw [hcur]; omega)
      refine ⟨hwound, ?_⟩
      have hone : w.agenda.advance (w.currentTick + 1) = (w.tick.1.agenda, w.tick.2) := by
        apply Prod.ext
        · ext1
          · funext t
            rw [Agenda.advance_due]
            change (if w.currentTick < t ∧ t ≤ w.currentTick + 1 then [] else w.due t) =
              w.tick.1.due t
            rw [h.tick_due hc]
            split_ifs <;> first | rfl | omega
          · change max w.currentTick (w.currentTick + 1) = w.tick.1.currentTick
            omega
        · rw [h.tick_fired hc]
          simp [Agenda.advance, Agenda.passed, agenda]
      obtain ⟨h1, h2⟩ := Agenda.advance_advance (a := w.agenda)
        (show w.currentTick + 1 ≤ target by omega)
      rw [hone] at h1 h2
      refine ⟨?_, ?_⟩
      · exact hfst.trans h1
      · change w.tick.2 ++ (TimerWheel.advanceLoop target n w.tick.1).2 = _
        rw [← h2, ← hsnd]
    · rw [Agenda.advance_of_le (Nat.le_of_not_lt hlt)]
      exact ⟨h, rfl, rfl⟩

/-- The wheel refines its agenda. -/
theorem Wound.advance (h : w.Wound) {nowNs : Nat} (hn : nowNs < 2^64) :
    (w.advance nowNs).1.Wound ∧
      (w.advance nowNs).1.agenda = (w.agenda.advance (nowNs / tickNs)).1 ∧
      (w.advance nowNs).2 = (w.agenda.advance (nowNs / tickNs)).2 := by
  have ht : nowNs / tickNs < 2^64 := (Nat.div_le_self _ _).trans_lt hn
  exact h.advanceLoop _ le_rfl ht

end TimerWheel

end Jellybean.Reactor
