import Jellybean.Reactor.ReactorTimersInvariant

namespace Jellybean.Reactor.TimerWheelCallbacks

open ReactorTimers (Phase Timer waiting doneTick Wheeled visit)

/-! A wheel whose callbacks call `add_timer` while `advance` runs. -/

structure State where
  wheel : TimerWheel Nat
  /-- The capacity of the vector of a bucket. -/
  capacity : Nat → Nat
  /-- `outside` between the calls, `looping` and `firing` in `advance`. -/
  phase : Phase
  /-- The bucket has moved while `advance` was iterating over it: from here on the behaviour of
  the program is undefined. -/
  dangling : Bool
  timers : List Timer
  /-- The tick at which the wheel comes to a timer: the one stored with it, unless `initialize` has
  put the wheel past that one since. -/
  due : Nat → Nat

inductive Action where
  | initializeAt (nowNs : Nat)
  | addTimer (delayNs : Nat)
  | advance (nowNs : Nat)
  /-- The next step inside `advance`. -/
  | step
  deriving DecidableEq

/-- Whether `add_timer` can be called: between the calls, and in a callback. -/
def callable : Phase → Bool
  | .outside => true
  | .firing _ mid it => mid < it
  | _ => false

namespace State

def initializeAt (s : State) (nowNs : Nat) : State :=
  { s with
    wheel := s.wheel.initializeAt nowNs
    timers := s.timers.map fun x =>
      { x with base := if nowNs / tickNs < x.expires then x.base else none }
    due := fun k =>
      match s.timers[k]? with
      | some x => if x.fired = [] then visit (nowNs / tickNs) x.expires else s.due k
      | none => s.due k }

/-- `grow` is the capacity that `push_back` gives to a full vector. -/
def addTimer (grow : Nat → Nat) (s : State) (delayNs : Nat) : State :=
  let expires := (s.wheel.currentTick + delayTicks delayNs) % 2^64
  let slot := slotOf expires
  let full := decide ((s.wheel.slots slot).length ≥ s.capacity slot)
  { s with
    wheel := s.wheel.addTimer delayNs s.timers.length
    capacity :=
      if full then Function.update s.capacity slot (grow (s.capacity slot)) else s.capacity
    dangling := s.phase.isFiring && (slot = slotOf s.wheel.currentTick) && full
    timers := s.timers ++ [⟨delayTicks delayNs, expires, some s.wheel.currentTick, []⟩]
    due := Function.update s.due s.timers.length expires }

/-- A callback is called. -/
def fire (s : State) (k : Nat) : List Timer :=
  s.timers.modify k fun x => { x with fired := x.fired ++ [s.wheel.currentTick] }

/-- `entries.end()` is read anew in every round of the loop over the expired entries. -/
def step (s : State) : Option State :=
  match s.phase with
  | .looping target =>
    if s.wheel.currentTick < target then
      let r := s.wheel.scan
      some { s with
        wheel := r.1
        phase := if r.1.entries = [] then .looping target else .firing target r.2 r.2 }
    else some { s with phase := .outside }
  | .firing target mid it =>
    match s.wheel.entries[it]? with
    | some e => some { s with timers := s.fire e.callback, phase := .firing target mid (it + 1) }
    | none => some { s with wheel := s.wheel.erase mid, phase := .looping target }
  | _ => none

end State

def step (grow : Nat → Nat) (s : State) (a : Action) : Option State :=
  if s.dangling then none
  else match a with
  | .initializeAt nowNs =>
    if s.phase = .outside ∧ nowNs < 2^64 then some (s.initializeAt nowNs) else none
  | .addTimer delayNs =>
    if callable s.phase = true ∧ delayNs < 2^64 then some (s.addTimer grow delayNs) else none
  | .advance nowNs =>
    if s.phase = .outside ∧ nowNs < 2^64 then some { s with phase := .looping (nowNs / tickNs) }
    else none
  | .step => s.step

def newWheel : State := ⟨.new, fun _ => 0, .outside, false, [], fun _ => 0⟩

def system (grow : Nat → Nat) : System State Action where
  init s := s = newWheel
  step := step grow

/-- Every timer has fired once, at its tick, if the wheel has done with that tick, and not at all
otherwise; its tick is that of its `add_timer` plus the delay unless `initialize` has passed it. -/
def FiresOnce (s : State) : Prop :=
  s.dangling = false ∧ ∀ (k : Nat) x, s.timers[k]? = some x →
    (x.fired = [] ∨ x.fired = [s.due k]) ∧
      (s.due k ≤ doneTick s.wheel s.phase → x.fired = [s.due k]) ∧
      (∀ b, x.base = some b → s.due k = b + x.ticks)

/-- A callback adds no timer to the bucket that is being run. -/
def Apart (s : State) : Action → Prop
  | .addTimer delayNs => s.phase.isFiring = true → ¬ slotCount ∣ delayTicks delayNs
  | _ => True

instance (s : State) : (a : Action) → Decidable (Apart s a)
  | .addTimer delayNs =>
    inferInstanceAs (Decidable (s.phase.isFiring = true → ¬ slotCount ∣ delayTicks delayNs))
  | .initializeAt _ | .advance _ | .step => .isTrue trivial

/-- Where `advance` stands. -/
def Scanning (s : State) : Prop :=
  match s.phase with
  | .looping T => T ≤ (2^64 - 1) / tickNs
  | .firing T mid it =>
    0 < s.wheel.currentTick ∧ T ≤ (2^64 - 1) / tickNs ∧ mid ≤ it ∧
      (∀ e ∈ s.wheel.entries.take mid, s.wheel.currentTick < e.expiresTick) ∧
      ∀ e ∈ s.wheel.entries.drop mid, e.expiresTick ≤ s.wheel.currentTick
  | _ => True

structure Inv (s : State) : Prop where
  bound : s.wheel.currentTick ≤ (2^64 - 1) / tickNs
  defined : s.dangling = false
  wheeled : Wheeled s.timers (waiting s.wheel s.phase)
  once : ∀ (k : Nat) x, s.timers[k]? = some x → x.fired = [] ∨ x.fired = [s.due k]
  later : ∀ (k : Nat) x, s.timers[k]? = some x → x.fired = [] →
    visit (doneTick s.wheel s.phase) x.expires = s.due k
  based : ∀ (k : Nat) x, s.timers[k]? = some x → ∀ b, x.base = some b →
    x.expires = b + x.ticks ∧ s.due k = x.expires
  scanning : Scanning s

variable {s : State} {grow : Nat → Nat}

theorem Inv.firesOnce (h : Inv s) : FiresOnce s := by
  refine ⟨h.defined, ?_⟩
  intro k x hx
  refine ⟨h.once k x hx, ?_, ?_⟩
  · intro hdue
    apply (h.once k x hx).resolve_left
    intro hfired
    have hlt := ReactorTimers.lt_visit (doneTick s.wheel s.phase) x.expires
    rw [h.later k x hx hfired] at hlt
    omega
  · intro b hb
    obtain ⟨hexp, hdue⟩ := h.based k x hx b hb
    exact hdue.trans hexp

theorem Inv.start : Inv newWheel where
  bound := Nat.zero_le _
  defined := rfl
  wheeled := ⟨by simp [newWheel, waiting, TimerWheel.new], by simp [newWheel, waiting,
    TimerWheel.new], by simp [newWheel]⟩
  once := by simp [newWheel]
  later := by simp [newWheel]
  based := by simp [newWheel]
  scanning := trivial

theorem Inv.initializeAt (h : Inv s) (hout : s.phase = .outside) {nowNs : Nat}
    (hn : nowNs < 2^64) : Inv (s.initializeAt nowNs) := by
  have hget : ∀ (k : Nat) y, (s.initializeAt nowNs).timers[k]? = some y → ∃ x,
      s.timers[k]? = some x ∧
        y = { x with base := if nowNs / tickNs < x.expires then x.base else none } := by
    intro k y hy
    change (s.timers.map _)[k]? = some y at hy
    rw [List.getElem?_map, Option.map_eq_some_iff] at hy
    obtain ⟨x, hx, rfl⟩ := hy
    exact ⟨x, hx, rfl⟩
  have hdue : ∀ (k : Nat) x, s.timers[k]? = some x → (s.initializeAt nowNs).due k =
      if x.fired = [] then visit (nowNs / tickNs) x.expires else s.due k := by
    intro k x hx
    simp only [State.initializeAt, hx]
  refine ⟨tick_lt hn, h.defined, ?_, ?_, ?_, ?_, ?_⟩
  · have hw := h.wheeled
    rw [hout] at hw
    change Wheeled (s.timers.map _) (waiting (s.wheel.initializeAt nowNs) s.phase)
    rw [hout]
    exact hw.map (fun _ => rfl) fun _ => rfl
  · intro k y hy
    obtain ⟨x, hx, rfl⟩ := hget k y hy
    rw [hdue k x hx]
    dsimp only
    split_ifs with hfired
    · exact .inl hfired
    · exact h.once k x hx
  · intro k y hy hfired
    obtain ⟨x, hx, rfl⟩ := hget k y hy
    rw [hdue k x hx, if_pos hfired]
    change visit (doneTick (s.wheel.initializeAt nowNs) s.phase) x.expires = _
    rw [hout]
    rfl
  · intro k y hy b hb
    obtain ⟨x, hx, rfl⟩ := hget k y hy
    rw [hdue k x hx]
    dsimp only at hb ⊢
    split_ifs at hb with hlt
    obtain ⟨hexp, hold⟩ := h.based k x hx b hb
    refine ⟨hexp, ?_⟩
    split_ifs
    · exact if_pos hlt
    · exact hold
  · change Scanning { s with wheel := _, timers := _, due := _ }
    unfold Scanning
    dsimp only
    rw [hout]
    trivial

theorem slotOf_add_ne {c t : Nat} (h : ¬ slotCount ∣ t) : slotOf (c + t) ≠ slotOf c := by
  rw [ReactorTimers.slotOf_eq_mod, ReactorTimers.slotOf_eq_mod]
  unfold slotCount at *
  omega

/-- The new timer is the only one that changes, and its bucket is not the one being run. -/
theorem Inv.addTimer (h : Inv s) {delayNs : Nat} (hd : delayNs < 2^64)
    (ha : Apart s (.addTimer delayNs)) : Inv (s.addTimer grow delayNs) := by
  have hw : s.wheel.currentTick + delayTicks delayNs < 2^64 := noWrap h.bound hd
  have hpos := delayTicks_pos delayNs
  have hne : s.phase.isFiring = true →
      slotOf (s.wheel.currentTick + delayTicks delayNs) ≠ slotOf s.wheel.currentTick :=
    fun hp => slotOf_add_ne (ha hp)
  have hdone := ReactorTimers.doneTick_le s.wheel s.phase
  have hget : ∀ (k : Nat) x, (s.addTimer grow delayNs).timers[k]? = some x →
      s.timers[k]? = some x ∧ (s.addTimer grow delayNs).due k = s.due k ∨
        x = ⟨delayTicks delayNs, s.wheel.currentTick + delayTicks delayNs,
          some s.wheel.currentTick, []⟩ ∧
        (s.addTimer grow delayNs).due k = s.wheel.currentTick + delayTicks delayNs := by
    intro k x hx
    change (s.timers ++ [_])[k]? = some x at hx
    change _ ∧ Function.update s.due s.timers.length _ k = _ ∨
      _ ∧ Function.update s.due s.timers.length _ k = _
    rw [Nat.mod_eq_of_lt hw] at hx ⊢
    by_cases hk : k < s.timers.length
    · left
      rw [List.getElem?_append_left hk] at hx
      exact ⟨hx, Function.update_of_ne hk.ne _ _⟩
    · right
      have hkl : k = s.timers.length := by
        have := (List.getElem?_eq_some_iff.mp hx).1
        rw [List.length_append, List.length_singleton] at this
        omega
      rw [hkl, List.getElem?_concat_length, Option.some_inj] at hx
      rw [hkl]
      exact ⟨hx.symm, Function.update_self _ _ _⟩
  refine ⟨h.bound, ?_, ?_, ?_, ?_, ?_, ?_⟩
  · change (s.phase.isFiring && _ && _) = false
    rw [Nat.mod_eq_of_lt hw]
    cases hp : s.phase.isFiring with
    | false => rfl
    | true => simp [hne hp]
  · have hnew := h.wheeled.concat (x := ⟨delayTicks delayNs,
      s.wheel.currentTick + delayTicks delayNs, some s.wheel.currentTick, []⟩) rfl
    rw [← ReactorTimers.waiting_addTimer hw hne] at hnew
    change Wheeled (s.timers ++ [_]) (waiting (s.wheel.addTimer delayNs s.timers.length) s.phase)
    rw [Nat.mod_eq_of_lt hw]
    exact hnew
  · intro k x hx
    rcases hget k x hx with ⟨hold, hdue⟩ | ⟨rfl, -⟩
    · rw [hdue]
      exact h.once k x hold
    · exact .inl rfl
  · intro k x hx hfired
    change visit (doneTick s.wheel s.phase) x.expires = _
    rcases hget k x hx with ⟨hold, hdue⟩ | ⟨rfl, hdue⟩
    · rw [hdue]
      exact h.later k x hold hfired
    · have hlt : doneTick s.wheel s.phase < s.wheel.currentTick + delayTicks delayNs := by omega
      rw [hdue]
      exact if_pos hlt
  · intro k x hx b hb
    rcases hget k x hx with ⟨hold, hdue⟩ | ⟨rfl, hdue⟩
    · rw [hdue]
      exact h.based k x hold b hb
    · cases hb
      exact ⟨rfl, hdue⟩
  · have hs := h.scanning
    unfold Scanning at hs ⊢
    change (match s.phase with
      | .looping T => _
      | .firing T mid it => _
      | _ => _)
    split at hs
    · exact hs
    · rename_i T mid it hp
      have hent : (s.addTimer grow delayNs).wheel.entries = s.wheel.entries := by
        unfold State.addTimer TimerWheel.addTimer TimerWheel.entries
        dsimp only
        rw [Nat.mod_eq_of_lt hw]
        exact Function.update_of_ne (hne (by rw [hp]; rfl)).symm _ _
      rw [hent]
      exact hs
    · trivial

theorem Inv.looping (h : Inv s) {T : Nat} (hp : s.phase = .looping T) :
    T ≤ (2^64 - 1) / tickNs ∧ Wheeled s.timers s.wheel.slots ∧
      ∀ (k : Nat) x, s.timers[k]? = some x → x.fired = [] →
        visit s.wheel.currentTick x.expires = s.due k := by
  have hs := h.scanning
  have hw := h.wheeled
  have hl := h.later
  rw [Scanning, hp] at hs
  rw [hp] at hw hl
  exact ⟨hs, hw, hl⟩

theorem Inv.firing (h : Inv s) {T mid it : Nat} (hp : s.phase = .firing T mid it) :
    (0 < s.wheel.currentTick ∧ T ≤ (2^64 - 1) / tickNs ∧ mid ≤ it ∧
      (∀ e ∈ s.wheel.entries.take mid, s.wheel.currentTick < e.expiresTick) ∧
      ∀ e ∈ s.wheel.entries.drop mid, e.expiresTick ≤ s.wheel.currentTick) ∧
      Wheeled s.timers (waiting s.wheel (.firing T mid it)) ∧
      ∀ (k : Nat) x, s.timers[k]? = some x → x.fired = [] →
        visit (s.wheel.currentTick - 1) x.expires = s.due k := by
  have hs := h.scanning
  have hw := h.wheeled
  have hl := h.later
  rw [Scanning, hp] at hs
  rw [hp] at hw hl
  exact ⟨hs, hw, hl⟩

theorem lt_of_tick_le {c : Nat} (h : c ≤ (2^64 - 1) / tickNs) : c < 2^64 :=
  lt_of_le_of_lt (h.trans (Nat.div_le_self _ _)) (by decide)

theorem Inv.begin (h : Inv s) (hout : s.phase = .outside) {nowNs : Nat} (hn : nowNs < 2^64) :
    Inv { s with phase := .looping (nowNs / tickNs) } := by
  have hw := h.wheeled
  have hl := h.later
  rw [hout] at hw hl
  exact ⟨h.bound, h.defined, hw, h.once, hl, h.based, tick_lt hn⟩

theorem Inv.finish (h : Inv s) {T : Nat} (hp : s.phase = .looping T) :
    Inv { s with phase := .outside } := by
  obtain ⟨-, hw, hl⟩ := h.looping hp
  exact ⟨h.bound, h.defined, hw, h.once, hl, h.based, trivial⟩

theorem Inv.skip (h : Inv s) {T : Nat} (hp : s.phase = .looping T) (hT : s.wheel.currentTick < T)
    (he : s.wheel.scan.1.entries = []) :
    Inv { s with wheel := s.wheel.scan.1, phase := .looping T } := by
  obtain ⟨hs, hw, hl⟩ := h.looping hp
  have hT64 := lt_of_tick_le hs
  have hc : s.wheel.currentTick + 1 < 2^64 := by omega
  have hwait : Wheeled s.timers s.wheel.scan.1.slots := hw.perm (ReactorTimers.scan_perm hc)
  refine ⟨?_, h.defined, hwait, h.once, ?_, h.based, hs⟩
  · dsimp only
    rw [ReactorTimers.scan_currentTick hc]
    omega
  · intro k x hx hfired
    rw [← hl k x hx hfired]
    exact ReactorTimers.visit_skip hc hwait he (List.mem_of_getElem? hx) hfired

theorem Inv.scan (h : Inv s) {T : Nat} (hp : s.phase = .looping T) (hT : s.wheel.currentTick < T) :
    Inv { s with wheel := s.wheel.scan.1, phase := .firing T s.wheel.scan.2 s.wheel.scan.2 } := by
  obtain ⟨hs, hw, hl⟩ := h.looping hp
  have hT64 := lt_of_tick_le hs
  have hc : s.wheel.currentTick + 1 < 2^64 := by omega
  have hcur := ReactorTimers.scan_currentTick hc
  refine ⟨?_, h.defined, hw.perm (ReactorTimers.waiting_scan_perm hc T), h.once, ?_, h.based, ?_⟩
  · dsimp only
    rw [hcur]
    omega
  · intro k x hx hfired
    rw [← hl k x hx hfired]
    change visit (s.wheel.scan.1.currentTick - 1) x.expires = _
    rw [hcur]
    rfl
  · refine ⟨by change 0 < s.wheel.scan.1.currentTick; omega, hs, le_rfl, ?_, ?_⟩
    · intro e he
      exact ReactorTimers.lt_of_mem_scan_take hc he
    · intro e he
      exact ReactorTimers.le_of_mem_scan_drop hc he

/-- The callback of an entry that waits behind `mid` is due at the tick of the wheel. -/
theorem Inv.fire (h : Inv s) {T mid it : Nat} {e : TimerEntry Nat}
    (hp : s.phase = .firing T mid it) (he : s.wheel.entries[it]? = some e) :
    Inv { s with timers := s.fire e.callback, phase := .firing T mid (it + 1) } := by
  obtain ⟨⟨hpos, hT, hmid, htake, hdrop⟩, hw, hl⟩ := h.firing hp
  have hbucket := ReactorTimers.waiting_bucket he T mid
  have hmem : e ∈ s.wheel.entries.drop it := by
    rw [ReactorTimers.drop_entries he]
    exact List.mem_cons_self
  obtain ⟨hslot, y, hy, hexp, hnot⟩ := hw.entry _ e (hbucket ▸ List.mem_append_right _
    List.mem_cons_self)
  have hnow : s.due e.callback = s.wheel.currentTick := by
    have hle := hdrop e (List.drop_subset_drop_left _ hmid hmem)
    rw [← hl _ y hy hnot, hexp]
    exact ReactorTimers.visit_expired hpos hle hslot
  have hget : ∀ (k : Nat) x, (s.fire e.callback)[k]? = some x →
      s.timers[k]? = some x ∨
        k = e.callback ∧ x = { y with fired := [s.wheel.currentTick] } := by
    intro k x hx
    unfold State.fire at hx
    by_cases hk : e.callback = k
    · right
      rw [← hk, List.getElem?_modify_eq, hy] at hx
      refine ⟨hk.symm, (Option.some_inj.mp hx).symm.trans ?_⟩
      dsimp only
      rw [hnot, List.nil_append]
    · left
      rwa [List.getElem?_modify_ne _ _ hk] at hx
  refine ⟨h.bound, h.defined, ?_, ?_, ?_, ?_, ?_⟩
  · change Wheeled (s.fire e.callback) (waiting s.wheel (.firing T mid (it + 1)))
    rw [ReactorTimers.waiting_next]
    exact hw.fire hbucket (by simp)
  · intro k x hx
    rcases hget k x hx with hx | ⟨rfl, rfl⟩
    · exact h.once k x hx
    · exact .inr (by rw [hnow])
  · intro k x hx hfired
    rcases hget k x hx with hx | ⟨rfl, rfl⟩
    · exact hl k x hx hfired
    · cases hfired
  · intro k x hx b hb
    rcases hget k x hx with hx | ⟨rfl, rfl⟩
    · exact h.based k x hx b hb
    · exact h.based _ y hy b hb
  · exact ⟨hpos, hT, hmid.trans (Nat.le_succ it), htake, hdrop⟩

theorem Inv.erase (h : Inv s) {T mid it : Nat} (hp : s.phase = .firing T mid it)
    (he : s.wheel.entries[it]? = none) :
    Inv { s with wheel := s.wheel.erase mid, phase := .looping T } := by
  obtain ⟨⟨hpos, hT, hmid, htake, hdrop⟩, hw, hl⟩ := h.firing hp
  refine ⟨h.bound, h.defined, ?_, h.once, ?_, h.based, hT⟩
  · change Wheeled s.timers (waiting (s.wheel.erase mid) (.looping T))
    rw [ReactorTimers.waiting_erase he]
    exact hw
  · intro k x hx hfired
    have hmem := List.mem_of_getElem? hx
    exact (ReactorTimers.visit_erase hw hpos htake he hmem hfired).trans (hl k x hx hfired)

theorem Inv.step (h : Inv s) {t : State} (ht : s.step = some t) : Inv t := by
  unfold State.step at ht
  split at ht
  · rename_i T hp
    dsimp only at ht
    split_ifs at ht with hT he
    · cases ht
      exact h.skip hp hT he
    · cases ht
      exact h.scan hp hT
    · cases ht
      exact h.finish hp
  · rename_i T mid it hp
    split at ht
    · rename_i e he
      cases ht
      exact h.fire hp he
    · rename_i he
      cases ht
      exact h.erase hp he
  · cases ht

theorem Inv.of_reachable (hr : (system grow).ReachableUnder Apart s) : Inv s := by
  apply System.ReachableUnder.invariant _ _ hr
  · intro s hs
    cases hs
    exact Inv.start
  · intro s a t h ha ht
    obtain ⟨-, ht⟩ := Option.ite_none_left_eq_some.mp ht
    cases a with
    | initializeAt nowNs =>
      obtain ⟨⟨hout, hn⟩, ht⟩ := Option.ite_none_right_eq_some.mp ht
      cases ht
      exact h.initializeAt hout hn
    | addTimer delayNs =>
      obtain ⟨⟨-, hd⟩, ht⟩ := Option.ite_none_right_eq_some.mp ht
      cases ht
      exact h.addTimer hd ha
    | advance nowNs =>
      obtain ⟨⟨hout, hn⟩, ht⟩ := Option.ite_none_right_eq_some.mp ht
      cases ht
      exact h.begin hout hn
    | step => exact h.step ht

/-- In every run in which no callback adds a timer to the bucket being run, every timer, whoever
added it, fires once and at its tick. -/
theorem firesOnce_of_apart (grow : Nat → Nat) (s : State)
    (hr : (system grow).ReachableUnder Apart s) : FiresOnce s :=
  (Inv.of_reachable hr).firesOnce

/-- `push_back` of libstdc++. -/
def doubled (capacity : Nat) : Nat := if capacity = 0 then 1 else 2 * capacity

/-- Three timers in one bucket, of which the first one adds a timer of `delayNs` when it fires. -/
def rearming (delayNs : Nat) : List Action :=
  [.initializeAt 0, .addTimer 5000000, .addTimer 5000000, .addTimer 5000000, .advance 5000000] ++
    List.replicate 6 .step ++ [.addTimer delayNs] ++ List.replicate 3 .step

theorem firesOnce_of_apart_rearming :
    ∃ s, (system doubled).run newWheel (rearming 511000000) = some s ∧
      s.timers.map Timer.fired = [[5], [5], [5], []] ∧ FiresOnce s := by
  have hrun : ((system doubled).run newWheel (rearming 511000000)).map
      (fun s => s.timers.map Timer.fired) = some [[5], [5], [5], []] := by
    decide +kernel
  obtain ⟨s, hs, hfired⟩ := Option.map_eq_some_iff.mp hrun
  have hc : (system doubled).Complies Apart newWheel (rearming 511000000) := by decide +kernel
  exact ⟨s, hs, hfired, firesOnce_of_apart doubled s (.run (.init rfl) hc hs)⟩

/-- The bucket has room for the new timer, which runs in the same pass, 512 ticks early. -/
theorem rearmed_early :
    ∃ s, (system doubled).run newWheel (rearming 512000000 ++ [.step]) = some s ∧
      (system doubled).Reachable s ∧ s.due 3 = 517 ∧ ¬ FiresOnce s := by
  have hrun : ((system doubled).run newWheel (rearming 512000000 ++ [.step])).map
      (fun s => (s.timers[3]?, s.due 3)) = some (some ⟨512, 517, some 5, [5]⟩, 517) := by
    decide +kernel
  obtain ⟨s, hs, hobs⟩ := Option.map_eq_some_iff.mp hrun
  obtain ⟨hget, hdue⟩ := Prod.mk.inj hobs
  refine ⟨s, hs, System.Reachable.run (.init rfl) hs, hdue, ?_⟩
  rintro ⟨-, h⟩
  have hfired := (h 3 _ hget).1
  rw [hdue] at hfired
  revert hfired
  decide

end Jellybean.Reactor.TimerWheelCallbacks
