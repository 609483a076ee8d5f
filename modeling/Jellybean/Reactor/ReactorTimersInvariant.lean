import Jellybean.Reactor.ReactorTimers

namespace Jellybean.Reactor.ReactorTimers

/-- The entries of a bucket that have not fired. -/
def waiting (w : TimerWheel Nat) : Phase → Nat → List (TimerEntry Nat)
  | .firing _ mid it, i =>
    if i = slotOf w.currentTick then w.entries.take mid ++ w.entries.drop it else w.slots i
  | _, i => w.slots i

theorem waiting_firing (w : TimerWheel Nat) (T mid it i : Nat) :
    waiting w (.firing T mid it) i =
      if i = slotOf w.currentTick then w.entries.take mid ++ w.entries.drop it else w.slots i := rfl

/-- The last tick that the wheel has done with. -/
def doneTick (w : TimerWheel Nat) : Phase → Nat
  | .firing .. => w.currentTick - 1
  | _ => w.currentTick

/-- The timers that have not fired are those in the wheel. -/
structure Wheeled (timers : List Timer) (entries : Nat → List (TimerEntry Nat)) : Prop where
  entry : ∀ i, ∀ e ∈ entries i, slotOf e.expiresTick = i ∧
    ∃ x, timers[e.callback]? = some x ∧ x.expires = e.expiresTick ∧ x.fired = []
  nodup : ∀ i, ((entries i).map TimerEntry.callback).Nodup
  unfired : ∀ (k : Nat) x, timers[k]? = some x → x.fired = [] →
    ∃ e ∈ entries (slotOf x.expires), e.callback = k

/-- Where `advance` stands. -/
def Scanning (s : State) : Prop :=
  match s.phase with
  | .looping T => s.wheel.currentTick ≤ T ∧ T ≤ s.clockTick
  | .firing T mid it =>
    0 < s.wheel.currentTick ∧ s.wheel.currentTick ≤ T ∧ T ≤ s.clockTick ∧ mid ≤ it ∧
      (∀ e ∈ s.wheel.entries.take mid, s.wheel.currentTick < e.expiresTick) ∧
      ∀ e ∈ s.wheel.entries.drop mid, e.expiresTick ≤ s.wheel.currentTick
  | _ => True

structure Inv (s : State) : Prop where
  clock : s.clock < 2^64
  behind : s.wheel.currentTick ≤ s.clockTick
  wheeled : Wheeled s.timers (waiting s.wheel s.phase)
  once : ∀ x ∈ s.timers, x.fired ≠ [] → ∃ T b, x.fired = [T] ∧ x.base = some b ∧ b + x.ticks ≤ T
  passed : ∀ T, s.lastPass = some T → T ≤ s.clockTick ∧
    ∀ x ∈ s.timers, ∀ b, x.fired = [] → x.base = some b → T < b + x.ticks
  inRun : s.phase ≠ .outside → s.hasRun = true ∧
    ∀ x ∈ s.timers, x.fired = [] →
      ∃ b, x.base = some b ∧ visit (doneTick s.wheel s.phase) x.expires = b + x.ticks
  scanning : Scanning s

theorem Inv.onTime {s : State} (h : Inv s) : OnTime s := by
  intro x hx
  by_cases hf : x.fired = []
  · rw [hf]
    refine ⟨Nat.zero_le _, by simp, ?_⟩
    intro T b hT hb hle
    have := (h.passed T hT).2 x hx b hf hb
    omega
  · obtain ⟨T, b, hT, hb, hle⟩ := h.once x hx hf
    rw [hT]
    refine ⟨le_rfl, ?_, ?_⟩
    · intro T' hT'
      rw [List.mem_singleton.mp hT']
      exact ⟨b, hb, hle⟩
    · intro _ _ _ _ _
      simp

/-! How the timers in the wheel change. -/

section

variable {timers : List Timer} {f g : Nat → List (TimerEntry Nat)}

theorem Wheeled.perm (h : Wheeled timers f) (hp : ∀ i, (g i).Perm (f i)) : Wheeled timers g := by
  refine ⟨?_, ?_, ?_⟩
  · intro i e he
    exact h.entry i e ((hp i).mem_iff.mp he)
  · intro i
    exact ((hp i).map _).nodup_iff.mpr (h.nodup i)
  · intro k x hx hfired
    obtain ⟨e, he, hk⟩ := h.unfired k x hx hfired
    exact ⟨e, (hp _).mem_iff.mpr he, hk⟩

theorem Wheeled.map (h : Wheeled timers f) {φ : Timer → Timer}
    (he : ∀ x, (φ x).expires = x.expires) (hf : ∀ x, (φ x).fired = x.fired) :
    Wheeled (timers.map φ) f := by
  refine ⟨?_, h.nodup, ?_⟩
  · intro i e hmem
    obtain ⟨hs, x, hx, hexp, hfired⟩ := h.entry i e hmem
    refine ⟨hs, φ x, ?_, (he x).trans hexp, (hf x).trans hfired⟩
    rw [List.getElem?_map, hx]
    rfl
  · intro k y hy hfired
    rw [List.getElem?_map, Option.map_eq_some_iff] at hy
    obtain ⟨x, hx, rfl⟩ := hy
    rw [he]
    exact h.unfired k x hx ((hf x).symm.trans hfired)

theorem Wheeled.concat (h : Wheeled timers f) {x : Timer} (hx : x.fired = []) :
    Wheeled (timers ++ [x])
      (Function.update f (slotOf x.expires)
        (f (slotOf x.expires) ++ [⟨x.expires, timers.length⟩])) := by
  have hold : ∀ i, ∀ e ∈ f i, e.callback < timers.length := by
    intro i e he
    obtain ⟨-, y, hy, -⟩ := h.entry i e he
    exact (List.getElem?_eq_some_iff.mp hy).1
  have hentry : ∀ i, ∀ e ∈ f i, slotOf e.expiresTick = i ∧
      ∃ y, (timers ++ [x])[e.callback]? = some y ∧ y.expires = e.expiresTick ∧ y.fired = [] := by
    intro i e he
    rw [List.getElem?_append_left (hold i e he)]
    exact h.entry i e he
  refine ⟨?_, ?_, ?_⟩
  · intro i e he
    rw [Function.update_apply] at he
    split_ifs at he with hi
    · rcases List.mem_append.mp he with he | he
      · rw [hi]
        exact hentry _ e he
      · rw [List.mem_singleton.mp he]
        exact ⟨hi.symm, x, by simp, rfl, hx⟩
    · exact hentry i e he
  · intro i
    rw [Function.update_apply]
    split_ifs
    · rw [List.map_append, List.map_singleton, List.nodup_append]
      refine ⟨h.nodup _, List.nodup_singleton _, ?_⟩
      intro k hk k' hk' heq
      obtain ⟨e, he, rfl⟩ := List.mem_map.mp hk
      have := hold _ e he
      rw [heq, List.mem_singleton.mp hk'] at this
      exact lt_irrefl _ this
    · exact h.nodup i
  · intro k y hy hfired
    by_cases hk : k < timers.length
    · rw [List.getElem?_append_left hk] at hy
      obtain ⟨e, he, hek⟩ := h.unfired k y hy hfired
      refine ⟨e, ?_, hek⟩
      rw [Function.update_apply]
      split_ifs with hs
      · rw [← hs]
        exact List.mem_append_left _ he
      · exact he
    · have hkl : k = timers.length := by
        have := (List.getElem?_eq_some_iff.mp hy).1
        rw [List.length_append, List.length_singleton] at this
        omega
      rw [hkl, List.getElem?_concat_length, Option.some_inj] at hy
      subst hy
      refine ⟨⟨x.expires, timers.length⟩, ?_, hkl.symm⟩
      rw [Function.update_self]
      exact List.mem_append_right _ (List.mem_singleton_self _)

/-- A timer has one entry at most. -/
theorem Wheeled.callback_ne (h : Wheeled timers f) {i j : Nat} {e e' : TimerEntry Nat}
    {l₁ l₂ : List (TimerEntry Nat)} (hf : f i = l₁ ++ e :: l₂)
    (he' : e' ∈ Function.update f i (l₁ ++ l₂) j) : e.callback ≠ e'.callback := by
  intro heq
  rw [Function.update_apply] at he'
  split_ifs at he' with hj
  · have hnd := h.nodup i
    rw [hf, List.map_append, List.map_cons, List.nodup_middle, List.nodup_cons,
      ← List.map_append] at hnd
    rw [heq] at hnd
    exact hnd.1 (List.mem_map_of_mem he')
  · obtain ⟨hs, x, hx, hexp, -⟩ := h.entry i e (by simp [hf])
    obtain ⟨hs', x', hx', hexp', -⟩ := h.entry j e' he'
    rw [heq, hx', Option.some_inj] at hx
    rw [← hs', ← hexp', hx, hexp, hs] at hj
    exact hj rfl

theorem Wheeled.fire (h : Wheeled timers f) {i : Nat} {e : TimerEntry Nat}
    {l₁ l₂ : List (TimerEntry Nat)} (hf : f i = l₁ ++ e :: l₂) {φ : Timer → Timer}
    (hφ : ∀ x, (φ x).fired ≠ []) :
    Wheeled (timers.modify e.callback φ) (Function.update f i (l₁ ++ l₂)) := by
  have hsub : ∀ j, ∀ e' ∈ Function.update f i (l₁ ++ l₂) j, e' ∈ f j := by
    intro j e' he'
    rw [Function.update_apply] at he'
    split_ifs at he' with hj
    · rw [hj, hf]
      simp only [List.mem_append, List.mem_cons] at he' ⊢
      tauto
    · exact he'
  refine ⟨?_, ?_, ?_⟩
  · intro j e' he'
    rw [List.getElem?_modify_ne φ timers (h.callback_ne hf he')]
    exact h.entry j e' (hsub j e' he')
  · intro j
    rw [Function.update_apply]
    split_ifs
    · have hnd := h.nodup i
      rw [hf, List.map_append, List.map_cons, List.nodup_middle, List.nodup_cons,
        ← List.map_append] at hnd
      exact hnd.2
    · exact h.nodup j
  · intro k x hx hfired
    by_cases hk : e.callback = k
    · rw [← hk, List.getElem?_modify_eq, Option.map_eq_map, Option.map_eq_some_iff] at hx
      obtain ⟨y, -, rfl⟩ := hx
      exact absurd hfired (hφ y)
    · rw [List.getElem?_modify_ne φ timers hk] at hx
      obtain ⟨e', he', hek⟩ := h.unfired k x hx hfired
      refine ⟨e', ?_, hek⟩
      rw [Function.update_apply]
      split_ifs with hs
      · rw [hs, hf, List.mem_append, List.mem_cons] at he'
        rcases he' with he' | rfl | he'
        · exact List.mem_append_left _ he'
        · exact absurd hek hk
        · exact List.mem_append_right _ he'
      · exact he'

theorem Wheeled.entry_of_unfired (h : Wheeled timers f) {x : Timer} (hx : x ∈ timers)
    (hfired : x.fired = []) : ∃ e ∈ f (slotOf x.expires), e.expiresTick = x.expires := by
  obtain ⟨k, hk⟩ := List.mem_iff_getElem?.mp hx
  obtain ⟨e, he, hek⟩ := h.unfired k x hk hfired
  obtain ⟨-, y, hy, hexp, -⟩ := h.entry _ e he
  rw [hek, hk, Option.some_inj] at hy
  exact ⟨e, he, by rw [hy, hexp]⟩

end

/-! How the steps of a tick change what is waiting. -/

section

variable {w : TimerWheel Nat} {timers : List Timer} {x : Timer} {e : TimerEntry Nat}
  {T mid it : Nat}

theorem scan_eq (hc : w.currentTick + 1 < 2^64) :
    w.scan = (⟨Function.update w.slots (slotOf (w.currentTick + 1))
        ((w.slots (slotOf (w.currentTick + 1))).filter (fun e => e.expiresTick > w.currentTick + 1) ++
          (w.slots (slotOf (w.currentTick + 1))).filter
            fun e => !decide (e.expiresTick > w.currentTick + 1)), w.currentTick + 1⟩,
      ((w.slots (slotOf (w.currentTick + 1))).filter
        fun e => e.expiresTick > w.currentTick + 1).length) := by
  unfold TimerWheel.scan
  dsimp only
  rw [Nat.mod_eq_of_lt hc, List.partition_eq_filter_filter]
  rfl

theorem scan_perm (hc : w.currentTick + 1 < 2^64) (i : Nat) :
    (w.scan.1.slots i).Perm (w.slots i) := by
  rw [scan_eq hc]
  dsimp only
  rw [Function.update_apply]
  split_ifs with hi
  · rw [hi]
    exact List.filter_append_perm _ _
  · exact List.Perm.refl _

theorem scan_currentTick (hc : w.currentTick + 1 < 2^64) :
    w.scan.1.currentTick = w.currentTick + 1 := by
  rw [scan_eq hc]

theorem scan_entries (hc : w.currentTick + 1 < 2^64) :
    w.scan.1.entries =
      (w.slots (slotOf (w.currentTick + 1))).filter (fun e => e.expiresTick > w.currentTick + 1) ++
        (w.slots (slotOf (w.currentTick + 1))).filter
          fun e => !decide (e.expiresTick > w.currentTick + 1) := by
  rw [TimerWheel.entries, scan_currentTick hc, scan_eq hc]
  exact Function.update_self _ _ _

theorem lt_of_mem_scan_take (hc : w.currentTick + 1 < 2^64)
    (he : e ∈ w.scan.1.entries.take w.scan.2) : w.scan.1.currentTick < e.expiresTick := by
  have hmid : w.scan.2 = ((w.slots (slotOf (w.currentTick + 1))).filter
      fun e => e.expiresTick > w.currentTick + 1).length := by
    rw [scan_eq hc]
  rw [scan_entries hc, hmid, List.take_left] at he
  rw [scan_currentTick hc]
  simpa using (List.mem_filter.mp he).2

theorem le_of_mem_scan_drop (hc : w.currentTick + 1 < 2^64)
    (he : e ∈ w.scan.1.entries.drop w.scan.2) : e.expiresTick ≤ w.scan.1.currentTick := by
  have hmid : w.scan.2 = ((w.slots (slotOf (w.currentTick + 1))).filter
      fun e => e.expiresTick > w.currentTick + 1).length := by
    rw [scan_eq hc]
  rw [scan_entries hc, hmid, List.drop_left] at he
  rw [scan_currentTick hc]
  simpa using (List.mem_filter.mp he).2

theorem waiting_scan_perm (hc : w.currentTick + 1 < 2^64) (T i : Nat) :
    (waiting w.scan.1 (.firing T w.scan.2 w.scan.2) i).Perm (w.slots i) := by
  rw [waiting_firing, List.take_append_drop]
  split_ifs with hi
  · rw [hi]
    exact scan_perm hc _
  · exact scan_perm hc i

/-- The bucket of a tick without entries holds no timer that is due. -/
theorem visit_skip (hc : w.currentTick + 1 < 2^64) (hw : Wheeled timers w.scan.1.slots)
    (he : w.scan.1.entries = []) (hx : x ∈ timers) (hfired : x.fired = []) :
    visit w.scan.1.currentTick x.expires = visit w.currentTick x.expires := by
  rw [scan_currentTick hc]
  apply visit_succ
  intro heq
  obtain ⟨e, hmem, -⟩ := hw.entry_of_unfired hx hfired
  rw [(visit_eq_succ.mp heq).2, ← scan_currentTick hc] at hmem
  change e ∈ w.scan.1.entries at hmem
  rw [he] at hmem
  cases hmem

theorem drop_entries (he : w.entries[it]? = some e) :
    w.entries.drop it = e :: w.entries.drop (it + 1) :=
  List.drop_eq_getElem?_toList_append.trans (by rw [he]; rfl)

theorem waiting_bucket (he : w.entries[it]? = some e) (T mid : Nat) :
    waiting w (.firing T mid it) (slotOf w.currentTick) =
      w.entries.take mid ++ e :: w.entries.drop (it + 1) := by
  rw [← drop_entries he, waiting_firing, if_pos rfl]

theorem waiting_next (w : TimerWheel Nat) (T mid it : Nat) :
    waiting w (.firing T mid (it + 1)) =
      Function.update (waiting w (.firing T mid it)) (slotOf w.currentTick)
        (w.entries.take mid ++ w.entries.drop (it + 1)) := by
  funext i
  rw [Function.update_apply, waiting_firing, waiting_firing]
  split_ifs
  · rfl
  · rfl

/-- An expired entry of the bucket is due at this tick. -/
theorem visit_expired (hpos : 0 < w.currentTick) {expires : Nat}
    (hle : expires ≤ w.currentTick) (hslot : slotOf expires = slotOf w.currentTick) :
    visit (w.currentTick - 1) expires = w.currentTick := by
  have hc : w.currentTick - 1 + 1 = w.currentTick := by omega
  have hnow : visit (w.currentTick - 1) expires = w.currentTick - 1 + 1 := by
    rw [visit_eq_succ, hc]
    exact ⟨hle, hslot⟩
  exact hnow.trans hc

theorem waiting_erase (he : w.entries[it]? = none) (T mid : Nat) :
    waiting (w.erase mid) (.looping T) = waiting w (.firing T mid it) := by
  have hall : w.entries.drop it = [] := List.drop_eq_nil_of_le (List.getElem?_eq_none_iff.mp he)
  funext i
  change Function.update w.slots (slotOf w.currentTick) (w.entries.take mid) i = _
  rw [waiting_firing, hall, List.append_nil, Function.update_apply]

/-- What is left in the bucket expires later. -/
theorem visit_erase (hw : Wheeled timers (waiting w (.firing T mid it)))
    (hpos : 0 < w.currentTick) (htake : ∀ e ∈ w.entries.take mid, w.currentTick < e.expiresTick)
    (he : w.entries[it]? = none) (hx : x ∈ timers) (hfired : x.fired = []) :
    visit w.currentTick x.expires = visit (w.currentTick - 1) x.expires := by
  have hc : w.currentTick - 1 + 1 = w.currentTick := by omega
  have hall : w.entries.drop it = [] := List.drop_eq_nil_of_le (List.getElem?_eq_none_iff.mp he)
  rw [← visit_succ (c := w.currentTick - 1), hc]
  intro heq
  obtain ⟨hle, hslot⟩ := visit_eq_succ.mp heq
  obtain ⟨e, hmem, hexp⟩ := hw.entry_of_unfired hx hfired
  rw [hslot, hc, waiting_firing, if_pos rfl, hall, List.append_nil] at hmem
  have := htake e hmem
  omega

end

theorem mem_modify {α : Type} {l : List α} {k : Nat} {φ : α → α} {y : α} (hy : y ∈ l.modify k φ) :
    y ∈ l ∨ ∃ x, l[k]? = some x ∧ y = φ x := by
  obtain ⟨j, hj⟩ := List.mem_iff_getElem?.mp hy
  by_cases hk : k = j
  · rw [← hk, List.getElem?_modify_eq, Option.map_eq_map, Option.map_eq_some_iff] at hj
    obtain ⟨x, hx, rfl⟩ := hj
    exact .inr ⟨x, hx, rfl⟩
  · rw [List.getElem?_modify_ne φ l hk] at hj
    exact .inl (List.mem_of_getElem? hj)

/-! Each action keeps the invariant. -/

theorem Inv.start {clock : Nat} (hc : clock < 2^64) :
    Inv ⟨.new, clock, false, .outside, false, [], none⟩ where
  clock := hc
  behind := Nat.zero_le _
  wheeled := ⟨by simp [waiting, TimerWheel.new], by simp [waiting, TimerWheel.new], by simp⟩
  once := by simp
  passed := by simp
  inRun := by simp
  scanning := trivial

variable {s : State}

theorem Inv.elapse (h : Inv s) {ns : Nat} (hc : s.clock + ns < 2^64) :
    Inv { s with clock := s.clock + ns } := by
  have hle : s.clockTick ≤ ({ s with clock := s.clock + ns } : State).clockTick :=
    Nat.div_le_div_right (Nat.le_add_right _ _)
  refine ⟨hc, h.behind.trans hle, h.wheeled, h.once, ?_, h.inRun, ?_⟩
  · intro T hT
    obtain ⟨hT', hx⟩ := h.passed T hT
    exact ⟨hT'.trans hle, hx⟩
  · have hs := h.scanning
    unfold Scanning at hs ⊢
    dsimp only
    split at hs
    · exact ⟨hs.1, hs.2.trans hle⟩
    · exact ⟨hs.1, hs.2.1, hs.2.2.1.trans hle, hs.2.2.2⟩
    · trivial

/-- Steps that leave the wheel alone. -/
theorem Inv.move (h : Inv s) {p : Phase} {r : Bool}
    (hw : waiting s.wheel p = waiting s.wheel s.phase)
    (hd : doneTick s.wheel p = doneTick s.wheel s.phase) (ho : s.phase = .outside → p = .outside)
    (hs : Scanning { s with phase := p, running := r }) :
    Inv { s with phase := p, running := r } := by
  refine ⟨h.clock, h.behind, ?_, h.once, h.passed, ?_, hs⟩
  · change Wheeled s.timers (waiting s.wheel p)
    rw [hw]
    exact h.wheeled
  · intro hp
    change s.hasRun = true ∧ ∀ x ∈ s.timers, x.fired = [] →
      ∃ b, x.base = some b ∧ visit (doneTick s.wheel p) x.expires = b + x.ticks
    rw [hd]
    exact h.inRun fun hout => hp (ho hout)

theorem Inv.run (h : Inv s) (hout : s.phase = .outside)
    (hv : ∀ x ∈ s.timers, x.fired = [] →
      visit s.clockTick x.expires = x.base.getD s.clockTick + x.ticks) : Inv s.run := by
  have hmem : ∀ y ∈ s.run.timers, ∃ x ∈ s.timers,
      y = { x with base := some (x.base.getD s.clockTick) } := by
    intro y hy
    obtain ⟨x, hx, rfl⟩ := List.mem_map.mp hy
    exact ⟨x, hx, rfl⟩
  refine ⟨h.clock, le_rfl, ?_, ?_, ?_, ?_, trivial⟩
  · have hw : waiting s.run.wheel s.run.phase = waiting s.wheel s.phase := by
      rw [hout]
      rfl
    rw [hw]
    exact h.wheeled.map (fun _ => rfl) fun _ => rfl
  · intro y hy hfired
    obtain ⟨x, hx, rfl⟩ := hmem y hy
    obtain ⟨T, b, hT, hb, hle⟩ := h.once x hx hfired
    refine ⟨T, b, hT, ?_, hle⟩
    rw [hb]
    rfl
  · intro T hT
    obtain ⟨hTc, -⟩ := h.passed T hT
    refine ⟨hTc, ?_⟩
    intro y hy b hfired hb
    obtain ⟨x, hx, rfl⟩ := hmem y hy
    have hlt := lt_visit s.clockTick x.expires
    rw [hv x hx hfired, Option.some_inj.mp hb] at hlt
    exact lt_of_le_of_lt hTc hlt
  · intro _
    refine ⟨rfl, ?_⟩
    intro y hy hfired
    obtain ⟨x, hx, rfl⟩ := hmem y hy
    exact ⟨_, rfl, hv x hx hfired⟩

/-- The invariant between the ticks of a pass. -/
theorem Inv.looping (h : Inv s) {T : Nat} (hp : s.phase = .looping T) :
    (s.wheel.currentTick ≤ T ∧ T ≤ s.clockTick) ∧ Wheeled s.timers s.wheel.slots ∧
      s.hasRun = true ∧ ∀ x ∈ s.timers, x.fired = [] →
        ∃ b, x.base = some b ∧ visit s.wheel.currentTick x.expires = b + x.ticks := by
  have hs := h.scanning
  have hrun := h.inRun (by rw [hp]; exact Phase.noConfusion)
  have hw := h.wheeled
  rw [Scanning, hp] at hs
  rw [hp] at hrun hw
  exact ⟨hs, hw, hrun⟩

/-- The invariant in the middle of a tick, which counts as not yet done. -/
theorem Inv.firing (h : Inv s) {T mid it : Nat} (hp : s.phase = .firing T mid it) :
    (0 < s.wheel.currentTick ∧ s.wheel.currentTick ≤ T ∧ T ≤ s.clockTick ∧ mid ≤ it ∧
      (∀ e ∈ s.wheel.entries.take mid, s.wheel.currentTick < e.expiresTick) ∧
      ∀ e ∈ s.wheel.entries.drop mid, e.expiresTick ≤ s.wheel.currentTick) ∧
      Wheeled s.timers (waiting s.wheel (.firing T mid it)) ∧
      s.hasRun = true ∧ ∀ x ∈ s.timers, x.fired = [] →
        ∃ b, x.base = some b ∧ visit (s.wheel.currentTick - 1) x.expires = b + x.ticks := by
  have hs := h.scanning
  have hrun := h.inRun (by rw [hp]; exact Phase.noConfusion)
  have hw := h.wheeled
  rw [Scanning, hp] at hs
  rw [hp] at hrun hw
  exact ⟨hs, hw, hrun⟩

/-- A pass is over: what has not fired is due later. -/
theorem Inv.endPass (h : Inv s) {T : Nat} (hp : s.phase = .looping T)
    (hT : T ≤ s.wheel.currentTick) :
    Inv { s with phase := .polling, lastPass := some T } := by
  obtain ⟨hs, hw, hrun⟩ := h.looping hp
  refine ⟨h.clock, h.behind, hw, h.once, ?_, fun _ => hrun, trivial⟩
  intro T' hT'
  cases hT'
  refine ⟨hs.2, ?_⟩
  intro x hx b hfired hb
  obtain ⟨b', hb', hv⟩ := hrun.2 x hx hfired
  have hbb : b' = b := Option.some_inj.mp (hb'.symm.trans hb)
  have hlt := lt_visit s.wheel.currentTick x.expires
  omega

/-- The bucket of the next tick is empty. -/
theorem Inv.skip (h : Inv s) {T : Nat} (hp : s.phase = .looping T) (hT : s.wheel.currentTick < T)
    (he : s.wheel.scan.1.entries = []) : Inv { s with wheel := s.wheel.scan.1 } := by
  obtain ⟨hs, hw, hrun⟩ := h.looping hp
  have hT64 : s.clockTick < 2^64 := lt_of_le_of_lt (Nat.div_le_self _ _) h.clock
  have hc : s.wheel.currentTick + 1 < 2^64 := by omega
  have hcur := scan_currentTick hc
  have hwait : Wheeled s.timers s.wheel.scan.1.slots := hw.perm (scan_perm hc)
  refine ⟨h.clock, ?_, ?_, h.once, h.passed, ?_, ?_⟩
  · change s.wheel.scan.1.currentTick ≤ s.clockTick
    omega
  · dsimp only
    rw [hp]
    exact hwait
  · intro _
    refine ⟨hrun.1, ?_⟩
    intro x hx hfired
    obtain ⟨b, hb, hv⟩ := hrun.2 x hx hfired
    refine ⟨b, hb, ?_⟩
    dsimp only
    rw [hp]
    exact (visit_skip hc hwait he hx hfired).trans hv
  · unfold Scanning
    dsimp only
    rw [hp]
    exact ⟨by omega, hs.2⟩

theorem Inv.scan (h : Inv s) {T : Nat} (hp : s.phase = .looping T) (hT : s.wheel.currentTick < T) :
    Inv { s with wheel := s.wheel.scan.1, phase := .firing T s.wheel.scan.2 s.wheel.scan.2 } := by
  obtain ⟨hs, hw, hrun⟩ := h.looping hp
  have hT64 : s.clockTick < 2^64 := lt_of_le_of_lt (Nat.div_le_self _ _) h.clock
  have hc : s.wheel.currentTick + 1 < 2^64 := by omega
  have hcur := scan_currentTick hc
  refine ⟨h.clock, ?_, hw.perm (waiting_scan_perm hc T), h.once, h.passed, ?_, ?_⟩
  · change s.wheel.scan.1.currentTick ≤ s.clockTick
    omega
  · intro _
    refine ⟨hrun.1, ?_⟩
    intro x hx hfired
    obtain ⟨b, hb, hv⟩ := hrun.2 x hx hfired
    refine ⟨b, hb, ?_⟩
    change visit (s.wheel.scan.1.currentTick - 1) x.expires = b + x.ticks
    rw [hcur]
    exact hv
  · refine ⟨by change 0 < s.wheel.scan.1.currentTick; omega,
      by change s.wheel.scan.1.currentTick ≤ T; omega, hs.2, le_rfl, ?_, ?_⟩
    · intro e he
      exact lt_of_mem_scan_take hc he
    · intro e he
      exact le_of_mem_scan_drop hc he

/-- A callback runs at its deadline. -/
theorem Inv.fire (h : Inv s) {T mid it : Nat} {e : TimerEntry Nat}
    (hp : s.phase = .firing T mid it) (he : s.wheel.entries[it]? = some e) :
    Inv { s with timers := s.fire e.callback T, phase := .firing T mid (it + 1) } := by
  obtain ⟨⟨hpos, hcT, hTc, hmid, htake, hdrop⟩, hw, hrun⟩ := h.firing hp
  have hbucket := waiting_bucket he T mid
  have hunfired : ∀ x ∈ s.fire e.callback T, x.fired = [] → x ∈ s.timers := by
    intro x hx hfired
    rcases mem_modify hx with hx | ⟨y, -, rfl⟩
    · exact hx
    · exact absurd hfired (by simp)
  refine ⟨h.clock, h.behind, ?_, ?_, ?_, ?_, ?_⟩
  · change Wheeled (s.fire e.callback T) (waiting s.wheel (.firing T mid (it + 1)))
    rw [waiting_next]
    exact hw.fire hbucket (by simp)
  · intro x hx hfired
    rcases mem_modify hx with hx | ⟨y, hy, rfl⟩
    · exact h.once x hx hfired
    · have hmem : e ∈ s.wheel.entries.drop it := by
        rw [drop_entries he]
        exact List.mem_cons_self
      obtain ⟨hslot, y', hy', hexp, hnot⟩ := hw.entry _ e (hbucket ▸ List.mem_append_right _
        List.mem_cons_self)
      rw [hy, Option.some_inj] at hy'
      subst hy'
      obtain ⟨b, hb, hv⟩ := hrun.2 y (List.mem_of_getElem? hy) hnot
      refine ⟨T, b, ?_, hb, ?_⟩
      · dsimp only
        rw [hnot, List.nil_append]
      · have hle := hdrop e (List.drop_subset_drop_left _ hmid hmem)
        have hnow := visit_expired hpos hle hslot
        rw [← hexp] at hnow
        dsimp only
        omega
  · intro T' hT'
    obtain ⟨hle, hx⟩ := h.passed T' hT'
    refine ⟨hle, ?_⟩
    intro x hmem b hfired hb
    exact hx x (hunfired x hmem hfired) b hfired hb
  · intro _
    refine ⟨hrun.1, ?_⟩
    intro x hmem hfired
    exact hrun.2 x (hunfired x hmem hfired) hfired
  · exact ⟨hpos, hcT, hTc, hmid.trans (Nat.le_succ it), htake, hdrop⟩

/-- The expired entries are erased when all of them have fired. -/
theorem Inv.erase (h : Inv s) {T mid it : Nat} (hp : s.phase = .firing T mid it)
    (he : s.wheel.entries[it]? = none) :
    Inv { s with wheel := s.wheel.erase mid, phase := .looping T } := by
  obtain ⟨⟨hpos, hcT, hTc, hmid, htake, hdrop⟩, hw, hrun⟩ := h.firing hp
  refine ⟨h.clock, h.behind, ?_, h.once, h.passed, ?_, ⟨hcT, hTc⟩⟩
  · change Wheeled s.timers (waiting (s.wheel.erase mid) (.looping T))
    rw [waiting_erase he]
    exact hw
  · intro _
    refine ⟨hrun.1, ?_⟩
    intro x hx hfired
    obtain ⟨b, hb, hv⟩ := hrun.2 x hx hfired
    refine ⟨b, hb, ?_⟩
    exact (visit_erase hw hpos htake he hx hfired).trans hv

theorem waiting_addTimer {w : TimerWheel Nat} {p : Phase} {delayNs k : Nat}
    (hw : w.currentTick + delayTicks delayNs < 2^64)
    (hne : p.isFiring = true →
      slotOf (w.currentTick + delayTicks delayNs) ≠ slotOf w.currentTick) :
    waiting (w.addTimer delayNs k) p =
      Function.update (waiting w p) (slotOf (w.currentTick + delayTicks delayNs))
        (waiting w p (slotOf (w.currentTick + delayTicks delayNs)) ++
          [⟨w.currentTick + delayTicks delayNs, k⟩]) := by
  have hslots : (w.addTimer delayNs k).slots =
      Function.update w.slots (slotOf (w.currentTick + delayTicks delayNs))
        (w.slots (slotOf (w.currentTick + delayTicks delayNs)) ++
          [⟨w.currentTick + delayTicks delayNs, k⟩]) := by
    unfold TimerWheel.addTimer
    rw [Nat.mod_eq_of_lt hw]
  cases p with
  | firing T mid it =>
    have hs := hne rfl
    have hent : (w.addTimer delayNs k).entries = w.entries := by
      unfold TimerWheel.entries
      rw [hslots]
      exact Function.update_of_ne hs.symm _ _
    funext i
    rw [waiting_firing, hent, hslots, Function.update_apply, Function.update_apply, waiting_firing,
      waiting_firing, if_neg hs]
    change (if i = slotOf w.currentTick then _ else _) = _
    split_ifs with h1 h2
    · exact absurd (h2.symm.trans h1) hs
    · rfl
    · rfl
    · rfl
  | outside => exact hslots
  | head => exact hslots
  | body => exact hslots
  | looping T => exact hslots
  | polling => exact hslots

theorem doneTick_le (w : TimerWheel Nat) (p : Phase) : doneTick w p ≤ w.currentTick := by
  cases p with
  | firing T mid it => exact Nat.sub_le _ _
  | _ => exact le_rfl

theorem Inv.addTimer (h : Inv s) {delayNs : Nat} (hd : delayNs < 2^64)
    (hq : Punctual s (.addTimer delayNs)) : Inv (s.addTimer delayNs) := by
  have hw : s.wheel.currentTick + delayTicks delayNs < 2^64 :=
    noWrap (h.behind.trans (tick_lt h.clock)) hd
  have hpos := delayTicks_pos delayNs
  have hne : s.phase.isFiring = true →
      slotOf (s.wheel.currentTick + delayTicks delayNs) ≠ slotOf s.wheel.currentTick := by
    intro hp
    refine (hq ?_).2 hp
    intro hout
    rw [hout] at hp
    cases hp
  have hmem : ∀ x ∈ (s.addTimer delayNs).timers, x ∈ s.timers ∨
      x = ⟨delayTicks delayNs, s.wheel.currentTick + delayTicks delayNs,
        if s.hasRun then some s.clockTick else none, []⟩ := by
    intro x hx
    change x ∈ s.timers ++ [_] at hx
    rw [Nat.mod_eq_of_lt hw] at hx
    simpa using hx
  refine ⟨h.clock, h.behind, ?_, ?_, ?_, ?_, ?_⟩
  · have hnew := h.wheeled.concat (x := ⟨delayTicks delayNs,
      s.wheel.currentTick + delayTicks delayNs, if s.hasRun then some s.clockTick else none, []⟩) rfl
    rw [← waiting_addTimer hw hne] at hnew
    change Wheeled (s.timers ++ [_]) (waiting (s.wheel.addTimer delayNs s.timers.length) s.phase)
    rw [Nat.mod_eq_of_lt hw]
    exact hnew
  · intro x hx hfired
    rcases hmem x hx with hx | rfl
    · exact h.once x hx hfired
    · exact absurd rfl hfired
  · intro T hT
    obtain ⟨hle, hold⟩ := h.passed T hT
    refine ⟨hle, ?_⟩
    intro x hx b hfired hb
    rcases hmem x hx with hx | rfl
    · exact hold x hx b hfired hb
    · dsimp only at hb ⊢
      split_ifs at hb
      have := Option.some_inj.mp hb
      omega
  · intro hp
    obtain ⟨hhas, hrun⟩ := h.inRun hp
    refine ⟨hhas, ?_⟩
    intro x hx hfired
    rcases hmem x hx with hx | rfl
    · exact hrun x hx hfired
    · refine ⟨s.clockTick, if_pos hhas, ?_⟩
      have hdone := doneTick_le s.wheel s.phase
      have hlt : doneTick s.wheel s.phase < s.wheel.currentTick + delayTicks delayNs := by omega
      change visit (doneTick s.wheel s.phase) (s.wheel.currentTick + delayTicks delayNs) =
        s.clockTick + delayTicks delayNs
      rw [visit, if_pos hlt, (hq hp).1]
  · have hs := h.scanning
    unfold Scanning at hs ⊢
    change (match s.phase with
      | .looping T => _
      | .firing T mid it => _
      | _ => _)
    split at hs
    · exact hs
    · rename_i T mid it hp
      have hent : (s.addTimer delayNs).wheel.entries = s.wheel.entries := by
        unfold State.addTimer TimerWheel.addTimer TimerWheel.entries
        dsimp only
        rw [Nat.mod_eq_of_lt hw]
        exact Function.update_of_ne (hne (by rw [hp]; rfl)).symm _ _
      rw [hent]
      exact hs
    · trivial

theorem Inv.step (h : Inv s) {t : State} (ht : s.step = some t) : Inv t := by
  unfold State.step at ht
  cases hp : s.phase with
  | outside =>
    rw [hp] at ht
    cases ht
  | head =>
    rw [hp] at ht
    cases ht
    cases s.running with
    | true => exact h.move (by rw [hp]; rfl) (by rw [hp]; rfl) (by rw [hp]; intro hh; cases hh) trivial
    | false => exact h.move (by rw [hp]; rfl) (by rw [hp]; rfl) (fun _ => rfl) trivial
  | body =>
    rw [hp] at ht
    cases ht
    exact h.move (by rw [hp]; rfl) (by rw [hp]; rfl) (by rw [hp]; intro hh; cases hh)
      ⟨h.behind, le_rfl⟩
  | looping T =>
    rw [hp] at ht
    dsimp only at ht
    split_ifs at ht with hT he
    · cases ht
      have := h.skip hp hT he
      rwa [hp] at this
    · cases ht
      exact h.scan hp hT
    · cases ht
      exact h.endPass hp (Nat.le_of_not_lt hT)
  | firing T mid it =>
    rw [hp] at ht
    dsimp only at ht
    split at ht
    · rename_i e he
      cases ht
      exact h.fire hp he
    · rename_i he
      cases ht
      exact h.erase hp he
  | polling =>
    rw [hp] at ht
    cases ht
    exact h.move (by rw [hp]; rfl) (by rw [hp]; rfl) (by rw [hp]; intro hh; cases hh) trivial

theorem Inv.of_reachable (hr : system.ReachableUnder Punctual s) : Inv s := by
  apply System.ReachableUnder.invariant _ _ hr
  · rintro s ⟨clock, hc, rfl⟩
    exact Inv.start hc
  · intro s a t h hq ht
    cases a with
    | elapse ns =>
      obtain ⟨hc, ht⟩ := Option.ite_none_right_eq_some.mp ht
      cases ht
      exact h.elapse hc
    | run =>
      obtain ⟨hout, ht⟩ := Option.ite_none_right_eq_some.mp ht
      cases ht
      exact h.run hout hq
    | step => exact h.step ht
    | stop =>
      cases ht
      exact h.move rfl rfl id h.scanning
    | addTimer delayNs =>
      obtain ⟨⟨-, hd⟩, ht⟩ := Option.ite_none_right_eq_some.mp ht
      cases ht
      exact h.addTimer hd hq

/-- In every run whose steps are punctual, timers keep to their deadlines. -/
theorem onTime_of_punctual (s : State) (hr : system.ReachableUnder Punctual s) : OnTime s :=
  (Inv.of_reachable hr).onTime

def atBoot : State := ⟨.new, 0, false, .outside, false, [], none⟩

/-- A timer from before the run and one added by a fiber; the run starts a whole revolution after
the first was added. -/
def revolutionLater : List Action :=
  [.addTimer 10000000, .elapse 512000000, .run, .step, .addTimer 3999999, .elapse 10000000] ++
    List.replicate 16 .step

theorem onTime_of_punctual_revolutionLater :
    ∃ s, system.run atBoot revolutionLater = some s ∧ s.phase = .polling ∧
      s.timers.map Timer.fired = [[522], [522]] ∧ OnTime s := by
  have hrun : (system.run atBoot revolutionLater).map
      (fun s => (s.phase, s.timers.map Timer.fired)) = some (.polling, [[522], [522]]) := by
    decide +kernel
  obtain ⟨s, hs, hobs⟩ := Option.map_eq_some_iff.mp hrun
  have hc : system.Complies Punctual atBoot revolutionLater := by decide +kernel
  obtain ⟨hphase, hfired⟩ := Prod.mk.inj hobs
  exact ⟨s, hs, hphase, hfired, onTime_of_punctual s (.run (.init ⟨0, by decide, rfl⟩) hc hs)⟩

/-- The same timer with a run that starts 517 ms after the boot: the bucket of tick 10 comes up
five ticks later. -/
def bootLater : List Action :=
  [.addTimer 10000000, .elapse 517000000, .run, .step, .elapse 5000000] ++ List.replicate 7 .step

theorem bootLater_not_onTime :
    ∃ s, system.run atBoot bootLater = some s ∧ system.Reachable s ∧
      s.timers = [⟨10, 10, some 517, [522]⟩] ∧ ¬ OnTime s := by
  have hrun : (system.run atBoot bootLater).map State.timers = some [⟨10, 10, some 517, [522]⟩] := by
    decide +kernel
  obtain ⟨s, hs, htimers⟩ := Option.map_eq_some_iff.mp hrun
  refine ⟨s, hs, System.Reachable.run (.init ⟨0, by decide, rfl⟩) hs, htimers, ?_⟩
  intro h
  unfold OnTime at h
  rw [htimers] at h
  obtain ⟨-, hearly, -⟩ := h _ (List.mem_singleton_self _)
  obtain ⟨b, hb, hle⟩ := hearly 522 (List.mem_singleton_self _)
  cases hb
  exact absurd hle (by decide)

end Jellybean.Reactor.ReactorTimers
