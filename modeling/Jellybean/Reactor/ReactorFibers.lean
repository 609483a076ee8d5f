import Jellybean.Reactor.ReactorQueuesInvariant

namespace Jellybean.Reactor

namespace ReactorQueues

variable {s t u : State} {a : Action} {F : Nat → Bool} {L : List Nat}

/-- The coroutines of `F` that calls of a list are about, in its order. -/
def fibersIn (F : Nat → Bool) (l : List Call) : List Nat := (l.filterMap Call.handle).filter F

theorem fibersIn_append (l m : List Call) : fibersIn F (l ++ m) = fibersIn F l ++ fibersIn F m := by
  unfold fibersIn
  rw [List.filterMap_append, List.filter_append]

theorem fibersIn_cons (c : Call) (l : List Call) :
    fibersIn F (c :: l) = fibersIn F [c] ++ fibersIn F l :=
  fibersIn_append [c] l

theorem fibersIn_singleton (c : Call) :
    fibersIn F [c] = match c.handle with
      | some f => if F f then [f] else []
      | none => [] := by
  unfold fibersIn
  cases hc : c.handle with
  | none => simp [hc]
  | some f => cases hf : F f <;> simp [hc, hf]

/-- The coroutine that runs has scheduled itself if it is one of `F`. -/
def yielded (F : Nat → Bool) (s : State) : Bool :=
  match s.phase with
  | .resuming (some f) => !F f || (fibersIn F s.runQueue).contains f
  | _ => true

/-- The coroutines of `F` do nothing but `co_await Yield{}`, and nobody else schedules them: each
schedules itself once while it runs, before it returns to the loop, and is never done. -/
def OnlyYield (F : Nat → Bool) (s : State) : Action → Prop
  | .schedule (some f) => F f = true → s.phase = .resuming (some f) ∧ f ∉ fibersIn F s.runQueue
  | .scheduleExternal (some f) => F f = false
  | .complete f => F f = false
  | .advance => yielded F s = true
  | .schedule none | .scheduleExternal none | .run | .stop => True

instance (F : Nat → Bool) (s : State) : (a : Action) → Decidable (OnlyYield F s a)
  | .schedule (some f) => inferInstanceAs
      (Decidable (F f = true → s.phase = .resuming (some f) ∧ f ∉ fibersIn F s.runQueue))
  | .scheduleExternal (some f) => inferInstanceAs (Decidable (F f = false))
  | .complete f => inferInstanceAs (Decidable (F f = false))
  | .advance => inferInstanceAs (Decidable (yielded F s = true))
  | .schedule none | .scheduleExternal none | .run | .stop => .isTrue trivial

/-- The loop has just swapped, and the coroutines of `F` in the swapped queue are `L`. -/
structure IterationStart (F : Nat → Bool) (L : List Nat) (s : State) : Prop where
  phase : s.phase = .resuming none
  next : s.next = 0
  runQueue : s.runQueue = []
  fibers : fibersIn F s.scratch = L
  nodup : L.Nodup
  external : fibersIn F s.external = []
  alive : ∀ f, F f = true → s.done f = false

/-- The coroutine of `F` that runs and has not yielded. -/
def pending (F : Nat → Bool) (s : State) : List Nat :=
  match s.phase with
  | .resuming (some f) => if F f ∧ f ∉ fibersIn F s.runQueue then [f] else []
  | _ => []

/-- The coroutines of `F` that have yielded, the one that runs and those not yet resumed are always
`L`, in its order. `n` is the number of swaps up to the start. -/
structure Circling (F : Nat → Bool) (L : List Nat) (n : Nat) (s : State) : Prop where
  known : s.threadKnown = true
  circle : fibersIn F s.runQueue ++ pending F s ++ fibersIn F (s.scratch.drop s.next) = L
  external : fibersIn F s.external = []
  alive : ∀ f, F f = true → s.done f = false
  swaps : ∀ j l, n ≤ j + 1 → s.swaps[j]? = some l → fibersIn F l = L

/-- Steps that move no coroutine of `F`. -/
theorem Circling.congr {n : Nat} (h : Circling F L n s) (hk : t.threadKnown = s.threadKnown)
    (hr : fibersIn F t.runQueue = fibersIn F s.runQueue) (hp : pending F t = pending F s)
    (hs : t.scratch.drop t.next = s.scratch.drop s.next)
    (he : fibersIn F t.external = fibersIn F s.external) (hd : t.done = s.done)
    (hw : t.swaps = s.swaps) : Circling F L n t := by
  constructor
  · exact hk.trans h.known
  · rw [hr, hp, hs]
    exact h.circle
  · exact he.trans h.external
  · rw [hd]
    exact h.alive
  · rw [hw]
    exact h.swaps

theorem Circling.visit {n : Nat} (h : Circling F L n s) (hL : L.Nodup) {c : Call}
    (hp : s.phase = .resuming none) (hc : s.scratch[s.next]? = some c) :
    Circling F L n (visit s c) := by
  obtain ⟨hlt, hget⟩ := List.getElem?_eq_some_iff.mp hc
  have hcircle := h.circle
  rw [List.drop_eq_getElem_cons hlt, hget, fibersIn_cons, fibersIn_singleton] at hcircle
  have hpend : pending F s = [] := by simp [pending, hp]
  rw [hpend, List.append_nil] at hcircle
  refine ⟨h.known, ?_, h.external, h.alive, h.swaps⟩
  show fibersIn F s.runQueue ++ pending F (ReactorQueues.visit s c) ++
    fibersIn F (s.scratch.drop (s.next + 1)) = L
  cases hh : c.handle with
  | none =>
    rw [hh] at hcircle
    have : pending F (ReactorQueues.visit s c) = [] := by
      simp [pending, ReactorQueues.visit, hh]
    rw [this]
    simpa using hcircle
  | some f =>
    rw [hh] at hcircle
    cases hf : F f with
    | false =>
      have : pending F (ReactorQueues.visit s c) = [] := by
        cases hd : s.done f <;> simp [pending, ReactorQueues.visit, hh, hd, hf]
      rw [this]
      simpa [hf] using hcircle
    | true =>
      have hfresh : f ∉ fibersIn F s.runQueue := by
        intro hmem
        simp only [hf, if_true] at hcircle
        rw [← hcircle, List.nodup_append] at hL
        exact hL.2.2 f hmem f (by simp) rfl
      have : pending F (ReactorQueues.visit s c) = [f] := by
        simp [pending, ReactorQueues.visit, hh, h.alive f hf, hf, hfresh]
      rw [this]
      simpa [hf] using hcircle

theorem Circling.schedule {n : Nat} (h : Circling F L n s) {handle : Option Nat}
    (ho : OnlyYield F s (.schedule handle)) : Circling F L n (pushLocal s handle) := by
  have hrun : fibersIn F (s.runQueue ++ [newCall s handle]) =
      fibersIn F s.runQueue ++ fibersIn F [newCall s handle] := fibersIn_append _ _
  by_cases hself : ∃ f, handle = some f ∧ F f = true
  · obtain ⟨f, rfl, hf⟩ := hself
    obtain ⟨hp, hfresh⟩ := ho hf
    have hnew : fibersIn F [newCall s (some f)] = [f] := by
      simp [fibersIn_singleton, newCall, hf]
    have hbefore : pending F s = [f] := by simp [pending, hp, hf, hfresh]
    have hafter : pending F (pushLocal s (some f)) = [] := by
      have hp' : (pushLocal s (some f)).phase = .resuming (some f) := hp
      have hmem : f ∈ fibersIn F (pushLocal s (some f)).runQueue := by
        show f ∈ fibersIn F (s.runQueue ++ [newCall s (some f)])
        rw [hrun, hnew]
        simp
      simp [pending, hp', hmem]
    have hcircle := h.circle
    rw [hbefore] at hcircle
    refine ⟨h.known, ?_, h.external, h.alive, h.swaps⟩
    rw [hafter]
    show fibersIn F (s.runQueue ++ [newCall s (some f)]) ++ [] ++ fibersIn F (s.scratch.drop s.next) = L
    rw [hrun, hnew, List.append_nil]
    exact hcircle
  · have hnew : fibersIn F [newCall s handle] = [] := by
      rw [fibersIn_singleton]
      cases handle with
      | none => rfl
      | some f =>
        have hf : F f = false := by simpa using hself
        simp [newCall, hf]
    have hsame : fibersIn F (pushLocal s handle).runQueue = fibersIn F s.runQueue := by
      show fibersIn F (s.runQueue ++ [newCall s handle]) = _
      rw [hrun, hnew, List.append_nil]
    refine h.congr rfl hsame ?_ rfl rfl rfl rfl
    unfold pending
    rw [hsame]
    rfl

theorem Circling.swap {n : Nat} (h : Circling F L n s) (hp : s.phase = .swapping)
    (hnext : s.scratch.length ≤ s.next) :
    Circling F L n { s with
      phase := .resuming none
      runQueue := []
      scratch := s.runQueue
      next := 0
      swaps := s.swaps ++ [s.runQueue] } := by
  have hcircle := h.circle
  have hpend : pending F s = [] := by simp [pending, hp]
  rw [hpend, List.drop_eq_nil_of_le hnext] at hcircle
  have hall : fibersIn F s.runQueue = L := by simpa [fibersIn] using hcircle
  refine ⟨h.known, ?_, h.external, h.alive, ?_⟩
  · simpa [pending, fibersIn] using hall
  · intro j l hj hl
    rcases Nat.lt_or_ge j s.swaps.length with hlt | hge
    · rw [List.getElem?_append_left hlt] at hl
      exact h.swaps j l hj hl
    · rw [List.getElem?_append_right hge] at hl
      rw [List.mem_singleton.mp (List.mem_of_getElem? hl)]
      exact hall

theorem fibersIn_pushExternal {handle : Option Nat} (hh : ∀ f, handle = some f → F f = false) :
    fibersIn F (s.external ++ [newCall s handle]) = fibersIn F s.external := by
  have hnew : fibersIn F [newCall s handle] = [] := by
    rw [fibersIn_singleton]
    cases handle with
    | none => rfl
    | some f => simp [newCall, hh f rfl]
  rw [fibersIn_append, hnew, List.append_nil]

theorem Circling.step {n : Nat} (h : Circling F L n s) (hi : Inv s) (hL : L.Nodup)
    (ho : OnlyYield F s a) (hm : Moves s a t) : Circling F L n t := by
  cases hm with
  | run hp => exact h.congr h.known.symm rfl (by simp [pending, hp]) rfl rfl rfl rfl
  | again hp => exact h.congr rfl rfl (by simp [pending, hp]) rfl rfl rfl rfl
  | leave hp => exact h.congr rfl rfl (by simp [pending, hp]) rfl rfl rfl rfl
  | pop c rest hp hq =>
    have hnone := h.external
    rw [hq, fibersIn_cons, List.append_eq_nil_iff] at hnone
    refine h.congr rfl ?_ (by simp [pending, hp]) rfl ?_ rfl rfl
    · show fibersIn F (s.runQueue ++ [c]) = _
      rw [fibersIn_append, hnone.1, List.append_nil]
    · exact hnone.2.trans h.external.symm
  | drained hp => exact h.congr rfl rfl (by simp [pending, hp]) rfl rfl rfl rfl
  | swap hp => exact h.swap hp (hi.looped.whole (by simp [hp]))
  | visit c hp hc => exact h.visit hL hp hc
  | endLoop hp => exact h.congr rfl rfl (by simp [pending, hp]) rfl rfl rfl rfl
  | back f hp =>
    refine h.congr rfl rfl ?_ rfl rfl rfl rfl
    have hy : yielded F s = true := ho
    simp only [pending, hp]
    rw [if_neg]
    rintro ⟨hf, hfresh⟩
    simp [yielded, hp, hf] at hy
    exact hfresh hy
  | polled hp => exact h.congr rfl rfl (by simp [pending, hp]) rfl rfl rfl rfl
  | schedule handle _ _ => exact h.schedule ho
  | scheduleFirst handle _ hk _ =>
    rw [h.known] at hk
    cases hk
  | scheduleExternal handle _ =>
    have hother : ∀ f, handle = some f → F f = false := by
      rintro f rfl
      exact ho
    exact h.congr rfl rfl rfl rfl (fibersIn_pushExternal hother) rfl rfl
  | complete f _ =>
    refine ⟨h.known, h.circle, h.external, ?_, h.swaps⟩
    intro g hg
    have hne : g ≠ f := by
      rintro rfl
      rw [show F g = false from ho] at hg
      cases hg
    show Function.update s.done f true g = false
    rw [Function.update_of_ne hne]
    exact h.alive g hg
  | stop => exact h.congr rfl rfl rfl rfl rfl rfl rfl

theorem threadKnown_of_reachable (h : system.Reachable s) :
    s.phase ≠ .outside → s.threadKnown = true := by
  refine h.invariant (P := fun s => s.phase ≠ .outside → s.threadKnown = true) ?_ ?_
  · rintro s rfl hne
    exact absurd rfl hne
  · intro s a t hs ht
    cases step_moves ht with
    | run hp => exact fun _ => rfl
    | leave hp => exact fun hne => absurd rfl hne
    | again hp | drained hp | swap hp | visit c hp hc | endLoop hp | back f hp | polled hp =>
      exact fun _ => hs (by simp [hp])
    | _ => exact hs

theorem IterationStart.circling (h : IterationStart F L s) (hr : system.Reachable s) :
    Circling F L s.swaps.length s := by
  have hloop := (Inv.of_reachable hr).looped
  constructor
  · exact threadKnown_of_reachable hr (by simp [h.phase])
  · rw [h.runQueue, h.next, List.drop_zero, h.fibers]
    simp [pending, h.phase, fibersIn]
  · exact h.external
  · exact h.alive
  · intro j l hj hl
    have hlt := (List.getElem?_eq_some_iff.mp hl).1
    obtain ⟨hs, -⟩ := hloop.current j (by omega)
    rw [hs] at hl
    cases hl
    exact h.fibers

theorem Circling.run {n : Nat} {as : List Action} (h : Circling F L n s) (hr : system.Reachable s)
    (hL : L.Nodup) (hc : system.Complies (OnlyYield F) s as) (ht : system.run s as = some t) :
    Circling F L n t := by
  induction as generalizing s with
  | nil =>
    cases ht
    exact h
  | cons a as ih =>
    rw [System.run_cons] at ht
    obtain ⟨u, hu, ht⟩ := Option.bind_eq_some_iff.mp ht
    have hm : Moves s a u := step_moves hu
    exact ih (h.step (Inv.of_reachable hr) hL hc.1 hm) (hr.next hu) (hc.2 u hu) ht

/-- The number of the loop's iteration that the thread is in. -/
def State.iteration (s : State) : Option Nat :=
  match s.phase with
  | .outside | .head => none
  | .draining | .swapping => some s.swaps.length
  | .resuming _ | .polling => some (s.swaps.length - 1)

/-- The loop over the queue that was swapped in iteration `j` has ended. -/
def IterationOver (s : State) (j : Nat) : Prop :=
  j + 1 < s.swaps.length ∨ j + 1 = s.swaps.length ∧ ∀ i, s.phase ≠ .resuming i

/-- The calls whose handles were resumed in iteration `j`. -/
def State.resumedIn (s : State) (j : Nat) : List Call :=
  (s.visits.filter fun v => v.iteration = j && v.resumed).map Visit.call

theorem Inv.visitsIn_prefix (h : Inv s) {j : Nat} {l : List Call} (hl : s.swaps[j]? = some l) :
    s.visitsIn j <+: l := by
  have hlt := (List.getElem?_eq_some_iff.mp hl).1
  by_cases hlast : j + 1 < s.swaps.length
  · rw [h.looped.earlier j hlast] at hl
    cases hl
    exact List.prefix_rfl
  · obtain ⟨hs, hv⟩ := h.looped.current j (by omega)
    rw [hs] at hl
    cases hl
    rw [hv]
    exact List.take_prefix _ _

theorem Inv.visitsIn_eq (h : Inv s) {j : Nat} {l : List Call} (hl : s.swaps[j]? = some l)
    (hover : IterationOver s j) : s.visitsIn j = l := by
  rcases hover with hlt | ⟨hlast, hp⟩
  · rw [h.looped.earlier j hlt] at hl
    exact Option.some.inj hl
  · obtain ⟨hs, hv⟩ := h.looped.current j hlast.symm
    rw [hs] at hl
    cases hl
    rw [hv, List.take_of_length_le (h.looped.whole hp)]

theorem fibersIn_resumed {l : List Visit} (j : Nat)
    (h : ∀ v ∈ l, ∀ f, v.call.handle = some f → F f = true → v.resumed = true) :
    fibersIn F ((l.filter fun v => v.iteration = j && v.resumed).map Visit.call) =
      fibersIn F ((l.filter fun v => v.iteration = j).map Visit.call) := by
  induction l with
  | nil => rfl
  | cons v l ih =>
    have ih := ih fun w hw => h w (List.mem_cons_of_mem v hw)
    by_cases hj : v.iteration = j
    · cases hres : v.resumed with
      | true =>
        simp only [List.filter_cons, hj, hres, decide_true, Bool.and_self, if_true, List.map_cons]
        rw [fibersIn_cons, ih, ← fibersIn_cons]
      | false =>
        have hnone : fibersIn F [v.call] = [] := by
          rw [fibersIn_singleton]
          split
          · next f hf =>
            rw [if_neg]
            intro hF
            have := h v List.mem_cons_self f hf hF
            rw [hres] at this
            cases this
          · rfl
        simp only [List.filter_cons, hj, hres, decide_true, Bool.and_false, Bool.false_eq_true,
          if_false, if_true, List.map_cons]
        rw [ih, fibersIn_cons, hnone, List.nil_append]
    · simpa [List.filter_cons, hj] using ih

/-- Fibers that only yield run once per iteration, in the same order. -/
theorem IterationStart.resumedIn_eq (h : IterationStart F L s) (hr : system.Reachable s)
    {as : List Action} (hc : system.Complies (OnlyYield F) s as) (ht : system.run s as = some t)
    {j : Nat} (hj : s.swaps.length ≤ j + 1) (hover : IterationOver t j) :
    fibersIn F (t.resumedIn j) = L := by
  have hcirc := (h.circling hr).run hr h.nodup hc ht
  have hinv : Inv t := Inv.of_reachable (.run hr ht)
  have hlt : j < t.swaps.length := by
    rcases hover with hlt | ⟨heq, -⟩ <;> omega
  have hl : t.swaps[j]? = some t.swaps[j] := List.getElem?_eq_getElem hlt
  have hall : ∀ v ∈ t.visits, ∀ f, v.call.handle = some f → F f = true → v.resumed = true := by
    intro v hv f hf hF
    by_contra hres
    have hdone := hinv.skipsDone v hv (by simpa using hres) f hf
    rw [hcirc.alive f hF] at hdone
    cases hdone
  have hvis := hinv.visitsIn_eq hl hover
  unfold State.visitsIn at hvis
  unfold State.resumedIn
  rw [fibersIn_resumed j hall, hvis]
  exact hcirc.swaps j _ hj hl

/-- The calls of a run only grow in number. -/
theorem calls_prefix_run {as : List Action} (ht : system.run s as = some t) : s.calls <+: t.calls := by
  induction as generalizing s with
  | nil =>
    cases ht
    exact List.prefix_rfl
  | cons a as ih =>
    rw [System.run_cons] at ht
    obtain ⟨u, hu, ht⟩ := Option.bind_eq_some_iff.mp ht
    refine List.IsPrefix.trans ?_ (ih ht)
    have hm : Moves s a u := step_moves hu
    cases hm with
    | schedule | scheduleFirst | scheduleExternal => exact List.prefix_append _ _
    | _ => exact List.prefix_rfl

theorem Inv.call_eq (h : Inv s) {c d : Call} (hc : c ∈ s.calls) (hd : s.calls[c.id]? = some d) :
    c = d := by
  obtain ⟨k, hk, rfl⟩ := List.mem_iff_getElem.mp hc
  have hid : (s.calls[k]).id = k := by
    have := congrArg (fun l => l[k]?) h.placed.ids
    simpa [hk] using this
  rw [hid, List.getElem?_eq_getElem hk] at hd
  exact Option.some.inj hd

/-- A call made in an iteration after its queue was drained waits for the next iteration. -/
theorem iteration_lt_of_after_drain (hr : system.Reachable s) {i : Nat} (hi : s.iteration = some i)
    (hp : s.phase ≠ .draining) {handle : Option Nat}
    (ha : a = .schedule handle ∨ a = .scheduleExternal handle) (ht : step s a = some t)
    {as : List Action} (hu : system.run t as = some u) {v : Visit} (hv : v ∈ u.visits)
    (hid : v.call.id = s.calls.length) : i < v.iteration := by
  have hinv := Inv.of_reachable hr
  have hinvu : Inv u := Inv.of_reachable (.run (hr.next ht) hu)
  have hcalls : t.calls = s.calls ++ [newCall s handle] := by
    have hm : Moves s a t := step_moves ht
    rcases ha with rfl | rfl <;> cases hm <;> rfl
  have hget : u.calls[v.call.id]? = some (newCall s handle) := by
    obtain ⟨rest, hrest⟩ := calls_prefix_run hu
    rw [hid, ← hrest, hcalls, List.append_assoc, List.getElem?_append_right le_rfl,
      Nat.sub_self]
    rfl
  have hmem : v.call ∈ u.calls := by
    apply hinvu.placed.perm.subset
    simp only [List.mem_append]
    exact .inl (.inl (.inl (List.mem_map_of_mem hv)))
  have hborn := hinvu.aged.visits v hv
  rw [hinvu.call_eq hmem hget] at hborn
  have hdrains : i < s.drains := by
    have hsw := hinv.looped.swapped
    have h1 := hinv.aged.swapping
    have h2 := hinv.aged.settled
    unfold State.iteration at hi
    cases hph : s.phase <;> simp_all [Phase.swapped] <;> omega
  exact Nat.lt_of_lt_of_le hdrains hborn

/-- What holds of the queues in a state: every call is at one place, none is resumed twice or
skipped without cause, and the loop follows the swapped queue. -/
structure Disciplined (s : State) : Prop where
  distinct : (s.calls.map Call.id).Nodup
  perm : (s.visits.map Visit.call ++ s.scratch.drop s.next ++ s.runQueue ++ s.external).Perm s.calls
  skipped : ∀ v ∈ s.visits, v.resumed = false → ∀ h, v.call.handle = some h → s.done h = true
  order : ∀ j l, s.swaps[j]? = some l →
    s.visitsIn j <+: l ∧ (IterationOver s j → s.visitsIn j = l)

/-- No call of `schedule` is lost or leads to two resumptions; handles are resumed in queue order;
those scheduled after the drain of an iteration wait for the next; fibers that only yield run once
per iteration in unchanged order. -/
theorem queues_disciplined (hr : system.Reachable s) :
    Disciplined s ∧
    (∀ i handle a t as u v, s.iteration = some i → s.phase ≠ .draining →
      a = .schedule handle ∨ a = .scheduleExternal handle → step s a = some t →
      system.run t as = some u → v ∈ u.visits → v.call.id = s.calls.length → i < v.iteration) ∧
    ∀ F L as t j, IterationStart F L s → system.Complies (OnlyYield F) s as →
      system.run s as = some t → s.swaps.length ≤ j + 1 → IterationOver t j →
      fibersIn F (t.resumedIn j) = L := by
  have hinv := Inv.of_reachable hr
  refine ⟨⟨?_, hinv.placed.perm, hinv.skipsDone, ?_⟩, ?_, ?_⟩
  · rw [hinv.placed.ids]
    exact List.nodup_range
  · intro j l hl
    exact ⟨hinv.visitsIn_prefix hl, hinv.visitsIn_eq hl⟩
  · intro i handle a t as u v hi hp ha ht hu hv hid
    exact iteration_lt_of_after_drain hr hi hp ha ht hu hv hid
  · intro F L as t j hstart hc ht hj hover
    exact hstart.resumedIn_eq hr hc ht hj hover

/-- Two fibers are scheduled before `run`, another handle from outside; the loop swaps. -/
def started : List Action :=
  [.schedule (some 1), .scheduleExternal (some 7), .schedule (some 2), .run, .advance, .advance,
    .advance, .advance, .advance, .advance]

/-- One iteration in which both fibers yield and a thread outside schedules the third handle once
more, and `stop` comes from it too; then `run` again up to the end of the next loop. -/
def yielding : List Action :=
  [.advance, .schedule (some 1), .advance, .advance, .stop, .scheduleExternal (some 7), .advance,
    .advance, .schedule (some 2), .advance, .advance, .advance, .advance, .run, .advance, .advance,
    .advance, .advance, .advance, .schedule (some 1), .advance, .advance, .schedule (some 2),
    .advance, .advance, .advance, .advance]

def fibers (h : Nat) : Bool := h == 1 || h == 2

theorem queues_disciplined_yielding :
    ∃ s t, system.run initial started = some s ∧ system.run s yielding = some t ∧
      fibersIn fibers (t.resumedIn 0) = [1, 2] ∧ fibersIn fibers (t.resumedIn 1) = [1, 2] := by
  have hsome : (system.run initial started).isSome = true := by decide +kernel
  obtain ⟨s, hs⟩ := Option.isSome_iff_exists.mp hsome
  have hproj : ∀ s ∈ system.run initial started, s.phase = .resuming none ∧ s.next = 0 ∧
      s.runQueue = [] ∧ fibersIn fibers s.scratch = [1, 2] ∧ fibersIn fibers s.external = [] ∧
      s.done 1 = false ∧ s.done 2 = false ∧ s.swaps.length = 1 := by
    decide +kernel
  obtain ⟨hphase, hnext, hqueue, hfibers, hext, h1, h2, hswaps⟩ := hproj s hs
  have hstart : IterationStart fibers [1, 2] s := by
    refine ⟨hphase, hnext, hqueue, hfibers, by decide, hext, ?_⟩
    intro f hf
    have hf : f = 1 ∨ f = 2 := by simpa [fibers] using hf
    rcases hf with rfl | rfl
    · exact h1
    · exact h2
  have hall : ∀ s ∈ system.run initial started, system.Complies (OnlyYield fibers) s yielding ∧
      ((system.run s yielding).map fun t => (t.phase, t.swaps.length)) = some (.polling, 2) := by
    decide +kernel
  obtain ⟨hc, hend⟩ := hall s hs
  obtain ⟨t, ht, hproj⟩ := Option.map_eq_some_iff.mp hend
  obtain ⟨hp, hlen⟩ := Prod.mk.inj hproj
  obtain ⟨-, -, h⟩ := queues_disciplined (.run (.init rfl) hs)
  refine ⟨s, t, hs, ht, ?_, ?_⟩
  · exact h fibers [1, 2] yielding t 0 hstart hc ht (by omega) (.inl (by omega))
  · exact h fibers [1, 2] yielding t 1 hstart hc ht (by omega) (.inr ⟨by omega, by simp [hp]⟩)

/-- The loop has begun to empty the external queue when a thread outside schedules a handle. -/
def draining : List Action := [.run, .advance]

theorem resumed_in_same_iteration :
    ¬ ∀ s i handle t as u v, system.Reachable s → s.iteration = some i →
      step s (.scheduleExternal handle) = some t → system.run t as = some u → v ∈ u.visits →
      v.call.id = s.calls.length → i < v.iteration := by
  intro h
  have hrun : (system.run initial draining).map (fun s => (s.iteration, s.calls.length)) =
      some (some 0, 0) := by
    decide +kernel
  obtain ⟨s, hs, hproj⟩ := Option.map_eq_some_iff.mp hrun
  obtain ⟨hi, hlen⟩ := Prod.mk.inj hproj
  have hvisit : ∀ s ∈ system.run initial draining, ∃ t ∈ step s (.scheduleExternal (some 5)),
      ((system.run t (List.replicate 4 .advance)).map fun u => u.visits) =
        some [⟨0, ⟨0, some 5, 0⟩, true⟩] := by
    decide +kernel
  obtain ⟨t, ht, hu⟩ := hvisit s hs
  obtain ⟨u, hu, hv⟩ := Option.map_eq_some_iff.mp hu
  have := h s 0 (some 5) t _ u ⟨0, ⟨0, some 5, 0⟩, true⟩ (.run (.init rfl) hs) hi ht hu
    (by rw [hv]; simp) (by rw [hlen])
  exact absurd this (Nat.lt_irrefl 0)

end ReactorQueues

end Jellybean.Reactor
