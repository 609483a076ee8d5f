import Jellybean.Reactor.ReactorQueues

namespace Jellybean.Reactor

namespace ReactorQueues

variable {s t : State} {a : Action}

/-- The calls that the loop came to in iteration `j`, in its order. -/
def State.visitsIn (s : State) (j : Nat) : List Call :=
  (s.visits.filter fun v => v.iteration = j).map Visit.call

/-- Every call is at exactly one place. -/
structure Placed (s : State) : Prop where
  ids : s.calls.map Call.id = List.range s.calls.length
  perm : (s.visits.map Visit.call ++ s.scratch.drop s.next ++ s.runQueue ++ s.external).Perm s.calls

theorem Placed.init : Placed initial := ⟨rfl, .refl _⟩

theorem Placed.congr (h : Placed s) (hc : t.calls = s.calls) (hv : t.visits = s.visits)
    (hs : t.scratch.drop t.next = s.scratch.drop s.next) (hr : t.runQueue = s.runQueue)
    (he : t.external = s.external) : Placed t := by
  constructor
  · rw [hc]
    exact h.ids
  · rw [hc, hv, hs, hr, he]
    exact h.perm

theorem ids_newCall (h : Placed s) (handle : Option Nat) :
    (s.calls ++ [newCall s handle]).map Call.id =
      List.range (s.calls ++ [newCall s handle]).length := by
  rw [List.map_append, h.ids, List.length_append, List.length_singleton, List.range_succ]
  rfl

theorem Placed.step (h : Placed s) (hnext : s.phase = .swapping → s.scratch.length ≤ s.next)
    (hm : Moves s a t) : Placed t := by
  cases hm with
  | pop c rest hp hq =>
    refine ⟨h.ids, ?_⟩
    have := h.perm
    rw [hq] at this
    show (_ ++ (s.runQueue ++ [c]) ++ rest).Perm s.calls
    simpa using this
  | swap hp =>
    refine ⟨h.ids, ?_⟩
    have := h.perm
    rw [List.drop_eq_nil_of_le (hnext hp)] at this
    show (_ ++ s.runQueue.drop 0 ++ [] ++ s.external).Perm s.calls
    simpa using this
  | visit c hp hc =>
    refine ⟨h.ids, ?_⟩
    have := h.perm
    obtain ⟨hlt, hget⟩ := List.getElem?_eq_some_iff.mp hc
    rw [List.drop_eq_getElem_cons hlt, hget] at this
    show ((s.visits ++ [_]).map Visit.call ++ s.scratch.drop (s.next + 1) ++ s.runQueue ++
      s.external).Perm s.calls
    simpa using this
  | schedule handle _ _ =>
    refine ⟨ids_newCall h handle, ?_⟩
    have hcomm := (@List.perm_append_comm _ [newCall s handle] s.external).append_left
      (s.visits.map Visit.call ++ s.scratch.drop s.next ++ s.runQueue)
    have hlast := h.perm.append_right [newCall s handle]
    show (_ ++ (s.runQueue ++ [newCall s handle]) ++ s.external).Perm (s.calls ++ [_])
    simp only [List.append_assoc] at hcomm hlast ⊢
    exact hcomm.trans hlast
  | scheduleFirst handle _ _ _ =>
    refine ⟨ids_newCall h handle, ?_⟩
    show (_ ++ (s.external ++ [newCall s handle])).Perm (s.calls ++ [_])
    rw [← List.append_assoc]
    exact h.perm.append_right _
  | scheduleExternal handle _ =>
    refine ⟨ids_newCall h handle, ?_⟩
    show (_ ++ (s.external ++ [newCall s handle])).Perm (s.calls ++ [_])
    rw [← List.append_assoc]
    exact h.perm.append_right _
  | _ => exact h.congr rfl rfl rfl rfl rfl

/-- The thread has swapped in this iteration. -/
def Phase.swapped : Phase → Bool
  | .resuming _ | .polling => true
  | .outside | .head | .draining | .swapping => false

/-- The loop over `scratch_queue_` and the iterations before it. `current` is the iteration that
the swap began last. -/
structure Looped (s : State) : Prop where
  next_le : s.next ≤ s.scratch.length
  whole : (∀ i, s.phase ≠ .resuming i) → s.scratch.length ≤ s.next
  current : ∀ j, s.swaps.length = j + 1 →
    s.swaps[j]? = some s.scratch ∧ s.visitsIn j = s.scratch.take s.next
  earlier : ∀ j, j + 1 < s.swaps.length → s.swaps[j]? = some (s.visitsIn j)
  later : ∀ v ∈ s.visits, v.iteration < s.swaps.length
  swapped : s.phase.swapped = true → 0 < s.swaps.length

theorem Looped.init : Looped initial := by
  constructor <;> simp [initial, Phase.swapped]

theorem Looped.congr (h : Looped s) (hn : t.next = s.next) (hs : t.scratch = s.scratch)
    (hw : t.swaps = s.swaps) (hv : t.visits = s.visits)
    (hp : (∃ i, t.phase = .resuming i) ↔ ∃ i, s.phase = .resuming i)
    (hp' : t.phase.swapped = true → s.phase.swapped = true) : Looped t := by
  have hvis : t.visitsIn = s.visitsIn := by
    unfold State.visitsIn
    rw [hv]
  have hne : (∀ i, t.phase ≠ .resuming i) ↔ ∀ i, s.phase ≠ .resuming i := by
    simpa using not_congr hp
  constructor
  · rw [hn, hs]
    exact h.next_le
  · rw [hn, hs, hne]
    exact h.whole
  · rw [hw, hs, hvis, hn]
    exact h.current
  · rw [hw, hvis]
    exact h.earlier
  · rw [hw, hv]
    exact h.later
  · rw [hw]
    exact fun ht => h.swapped (hp' ht)

theorem visitsIn_visit (c : Call) (j : Nat) :
    (visit s c).visitsIn j =
      if j = s.swaps.length - 1 then s.visitsIn j ++ [c] else s.visitsIn j := by
  unfold State.visitsIn visit
  simp only [List.filter_append, List.map_append]
  split
  · next e => simp [e]
  · next e => simp [Ne.symm e]

theorem Looped.swap (h : Looped s) (hp : s.phase = .swapping) :
    Looped { s with
      phase := .resuming none
      runQueue := []
      scratch := s.runQueue
      next := 0
      swaps := s.swaps ++ [s.runQueue] } := by
  have hwhole := h.whole (by simp [hp])
  have hlen : (s.swaps ++ [s.runQueue]).length = s.swaps.length + 1 := List.length_append
  constructor
  · exact Nat.zero_le _
  · intro hne
    exact absurd rfl (hne none)
  · intro j hj
    have hj : j = s.swaps.length := Nat.add_right_cancel (hj.symm.trans hlen)
    subst hj
    refine ⟨List.getElem?_concat_length .., ?_⟩
    show (s.visits.filter _).map _ = _
    rw [List.filter_eq_nil_iff.mpr, List.map_nil, List.take_zero]
    intro v hv
    have := h.later v hv
    simp
    omega
  · intro j hj
    have hj : j < s.swaps.length := Nat.lt_of_succ_lt_succ (hj.trans_eq hlen)
    show (s.swaps ++ _)[j]? = some (s.visitsIn j)
    rw [List.getElem?_append_left hj]
    by_cases hlast : j + 1 < s.swaps.length
    · exact h.earlier j hlast
    · obtain ⟨hs, hv⟩ := h.current j (by omega)
      rw [hs, hv, List.take_of_length_le hwhole]
  · intro v hv
    exact hlen ▸ Nat.lt_succ_of_lt (h.later v hv)
  · intro _
    exact hlen ▸ Nat.succ_pos _

theorem Looped.visit (h : Looped s) {c : Call} (hp : s.phase = .resuming none)
    (hc : s.scratch[s.next]? = some c) : Looped (visit s c) := by
  obtain ⟨hlt, hget⟩ := List.getElem?_eq_some_iff.mp hc
  have hpos : 0 < s.swaps.length := h.swapped (by rw [hp]; rfl)
  constructor
  · exact hlt
  · intro hne
    exact absurd rfl (hne _)
  · intro j hj
    obtain ⟨hs, hv⟩ := h.current j hj
    refine ⟨hs, ?_⟩
    have hj : s.swaps.length = j + 1 := hj
    rw [visitsIn_visit, if_pos (by omega), hv]
    show _ = s.scratch.take (s.next + 1)
    rw [List.take_add_one, hc]
    rfl
  · intro j hj
    have hj : j + 1 < s.swaps.length := hj
    rw [visitsIn_visit, if_neg (by omega)]
    exact h.earlier j hj
  · intro v hv
    show v.iteration < s.swaps.length
    rcases List.mem_append.mp hv with hv | hv
    · exact h.later v hv
    · rw [List.mem_singleton.mp hv]
      show s.swaps.length - 1 < s.swaps.length
      omega
  · intro _
    exact hpos

theorem Looped.endLoop (h : Looped s) (hp : s.phase = .resuming none)
    (hle : s.scratch.length ≤ s.next) : Looped { s with phase := .polling } := by
  constructor
  · exact h.next_le
  · intro _
    exact hle
  · exact h.current
  · exact h.earlier
  · exact h.later
  · intro _
    exact h.swapped (by rw [hp]; rfl)

theorem Looped.step (h : Looped s) (hm : Moves s a t) : Looped t := by
  cases hm with
  | run hp => exact h.congr rfl rfl rfl rfl (by simp [hp]) (by simp [hp, Phase.swapped])
  | again hp => exact h.congr rfl rfl rfl rfl (by simp [hp]) (by simp [hp, Phase.swapped])
  | leave hp => exact h.congr rfl rfl rfl rfl (by simp [hp]) (by simp [hp, Phase.swapped])
  | drained hp => exact h.congr rfl rfl rfl rfl (by simp [hp]) (by simp [hp, Phase.swapped])
  | swap hp => exact h.swap hp
  | visit c hp hc => exact h.visit hp hc
  | endLoop hp hle => exact h.endLoop hp hle
  | back i hp => exact h.congr rfl rfl rfl rfl (by simp [hp]) (by simp [hp, Phase.swapped])
  | polled hp => exact h.congr rfl rfl rfl rfl (by simp [hp]) (by simp [hp, Phase.swapped])
  | _ => exact h.congr rfl rfl rfl rfl Iff.rfl id

/-- A call is not younger than the iteration in which the loop comes to it. -/
structure Aged (s : State) : Prop where
  swapping : s.phase = .swapping → s.drains = s.swaps.length + 1
  settled : s.phase ≠ .swapping → s.drains = s.swaps.length
  external : ∀ c ∈ s.external, c.born ≤ s.drains
  runQueue : ∀ c ∈ s.runQueue, c.born ≤ s.swaps.length
  scratch : ∀ c ∈ s.scratch, c.born + 1 ≤ s.swaps.length
  visits : ∀ v ∈ s.visits, v.call.born ≤ v.iteration

theorem Aged.init : Aged initial := by
  constructor <;> simp [initial]

/-- Steps that take no call out of a queue. -/
theorem Aged.grow (h : Aged s) (hw : t.swaps = s.swaps) (hd : t.drains = s.drains)
    (hp : t.phase = .swapping ↔ s.phase = .swapping)
    (he : ∀ c ∈ t.external, c ∈ s.external ∨ c.born = s.drains)
    (hr : ∀ c ∈ t.runQueue, c ∈ s.runQueue ∨ (c.born = s.drains ∧ s.phase ≠ .swapping))
    (hs : t.scratch = s.scratch) (hv : t.visits = s.visits) : Aged t := by
  constructor
  · rw [hp, hd, hw]
    exact h.swapping
  · rw [ne_eq, hp, hd, hw]
    exact h.settled
  · intro c hc
    rw [hd]
    rcases he c hc with hc | hc
    · exact h.external c hc
    · exact hc.le
  · intro c hc
    rw [hw]
    rcases hr c hc with hc | ⟨hc, hne⟩
    · exact h.runQueue c hc
    · rw [hc, h.settled hne]
  · rw [hs, hw]
    exact h.scratch
  · rw [hv]
    exact h.visits

theorem Aged.pop (h : Aged s) {c : Call} {rest : List Call} (hp : s.phase = .draining)
    (hq : s.external = c :: rest) :
    Aged { s with external := rest, runQueue := s.runQueue ++ [c] } := by
  have hd := h.settled (by simp [hp])
  constructor
  · exact h.swapping
  · exact h.settled
  · intro d hd
    exact h.external d (hq ▸ List.mem_cons_of_mem c hd)
  · intro d hmem
    rcases List.mem_append.mp hmem with hmem | hmem
    · exact h.runQueue d hmem
    · rw [List.mem_singleton.mp hmem, ← hd]
      exact h.external c (hq ▸ List.mem_cons_self)
  · exact h.scratch
  · exact h.visits

theorem Aged.drained (h : Aged s) (hp : s.phase = .draining) (hq : s.external = []) :
    Aged { s with phase := .swapping, drains := s.drains + 1 } := by
  have hd := h.settled (by simp [hp])
  constructor
  · intro _
    exact congrArg (· + 1) hd
  · intro hne
    exact absurd rfl hne
  · intro c hc
    have hc : c ∈ s.external := hc
    rw [hq] at hc
    cases hc
  · exact h.runQueue
  · exact h.scratch
  · exact h.visits

theorem Aged.swap (h : Aged s) (hp : s.phase = .swapping) :
    Aged { s with
      phase := .resuming none
      runQueue := []
      scratch := s.runQueue
      next := 0
      swaps := s.swaps ++ [s.runQueue] } := by
  have hd := h.swapping hp
  have hlen : (s.swaps ++ [s.runQueue]).length = s.swaps.length + 1 := List.length_append
  constructor
  · intro hne
    cases hne
  · intro _
    exact hd.trans hlen.symm
  · exact h.external
  · intro c hc
    cases hc
  · intro c hc
    show _ ≤ (s.swaps ++ [s.runQueue]).length
    rw [hlen]
    exact Nat.succ_le_succ (h.runQueue c hc)
  · exact h.visits

theorem Aged.visit (h : Aged s) {c : Call} (hp : s.phase = .resuming none)
    (hc : s.scratch[s.next]? = some c) : Aged (visit s c) := by
  have hmem := h.scratch c (List.mem_of_getElem? hc)
  constructor
  · intro hne
    cases hne
  · intro _
    exact h.settled (by simp [hp])
  · exact h.external
  · exact h.runQueue
  · exact h.scratch
  · intro v hv
    rcases List.mem_append.mp hv with hv | hv
    · exact h.visits v hv
    · rw [List.mem_singleton.mp hv]
      exact Nat.le_sub_of_add_le hmem

theorem Aged.step (h : Aged s) (hm : Moves s a t) : Aged t := by
  have hkeep : ∀ c ∈ s.external, c ∈ s.external ∨ c.born = s.drains := fun _ => .inl
  have hkeep' : ∀ c ∈ s.runQueue, c ∈ s.runQueue ∨ (c.born = s.drains ∧ s.phase ≠ .swapping) :=
    fun _ => .inl
  have hpush : ∀ handle, ∀ c ∈ s.external ++ [newCall s handle],
      c ∈ s.external ∨ c.born = s.drains := by
    intro handle c hc
    rcases List.mem_append.mp hc with hc | hc
    · exact .inl hc
    · rw [List.mem_singleton.mp hc]
      exact .inr rfl
  cases hm with
  | run hp => exact h.grow rfl rfl (by simp [hp]) hkeep hkeep' rfl rfl
  | again hp => exact h.grow rfl rfl (by simp [hp]) hkeep hkeep' rfl rfl
  | leave hp => exact h.grow rfl rfl (by simp [hp]) hkeep hkeep' rfl rfl
  | pop c rest hp hq => exact h.pop hp hq
  | drained hp hq => exact h.drained hp hq
  | swap hp => exact h.swap hp
  | visit c hp hc => exact h.visit hp hc
  | endLoop hp => exact h.grow rfl rfl (by simp [hp]) hkeep hkeep' rfl rfl
  | back i hp => exact h.grow rfl rfl (by simp [hp]) hkeep hkeep' rfl rfl
  | polled hp => exact h.grow rfl rfl (by simp [hp]) hkeep hkeep' rfl rfl
  | schedule handle hp _ =>
    refine h.grow rfl rfl Iff.rfl hkeep ?_ rfl rfl
    intro c hc
    rcases List.mem_append.mp hc with hc | hc
    · exact .inl hc
    · rw [List.mem_singleton.mp hc]
      refine .inr ⟨rfl, ?_⟩
      intro he
      rw [he] at hp
      cases hp
  | scheduleFirst handle => exact h.grow rfl rfl Iff.rfl (hpush handle) hkeep' rfl rfl
  | scheduleExternal handle => exact h.grow rfl rfl Iff.rfl (hpush handle) hkeep' rfl rfl
  | complete => exact h.grow rfl rfl Iff.rfl hkeep hkeep' rfl rfl
  | stop => exact h.grow rfl rfl Iff.rfl hkeep hkeep' rfl rfl

/-- The loop skips null handles and coroutines that are done. -/
def SkipsDone (s : State) : Prop :=
  ∀ v ∈ s.visits, v.resumed = false → ∀ h, v.call.handle = some h → s.done h = true

theorem SkipsDone.step (h : SkipsDone s) (hm : Moves s a t) : SkipsDone t := by
  cases hm with
  | visit c hp hc =>
    intro v hv hres handle hh
    rcases List.mem_append.mp hv with hv | hv
    · exact h v hv hres handle hh
    · rw [List.mem_singleton.mp hv] at hres hh
      show s.done handle = true
      simpa [show c.handle = some handle from hh] using hres
  | complete i _ =>
    intro v hv hres handle hh
    have := h v hv hres handle hh
    show Function.update s.done i true handle = true
    rw [Function.update_apply, this, ite_self]
  | _ => exact h

structure Inv (s : State) : Prop where
  placed : Placed s
  looped : Looped s
  aged : Aged s
  skipsDone : SkipsDone s

theorem Inv.step (h : Inv s) (hm : Moves s a t) : Inv t where
  placed := h.placed.step (fun hp => h.looped.whole (by simp [hp])) hm
  looped := h.looped.step hm
  aged := h.aged.step hm
  skipsDone := h.skipsDone.step hm

theorem Inv.of_reachable (h : system.Reachable s) : Inv s := by
  refine h.invariant ?_ ?_
  · rintro s rfl
    exact ⟨.init, .init, .init, by intro v hv; cases hv⟩
  · intro s a t hs ht
    exact hs.step (step_moves ht)

end ReactorQueues

end Jellybean.Reactor
