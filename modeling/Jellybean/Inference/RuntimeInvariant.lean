import Jellybean.Inference.RuntimeCustody

namespace Jellybean.Inference.InferenceRuntime

open Model
open ModelExecutor (Halted Halting Serial)

variable {α : Type*} {s u : State α} {workerThreads : Nat}

/-- Every executor is where the threads that use it say: only the thread that has it starts or
stops it, and once nobody has it, it is stopped. -/
structure Occupied (s : State α) : Prop where
  execs : ∀ e, (ModelExecutor.system (s.configs e)).ReachableUnder Serial (s.execs e)
  entered : ∀ e j, (s.execs e).callers j ≠ .idle → (s.threads j).entered = some e
  asking : ∀ e j, s.threads j = .inferring e → ((s.execs e).callers j).isManaging = false
  ending : ∀ e i, (s.threads i).ending = some e → Halting (s.execs e) i
  retired : ∀ e < s.created, (∀ l, ¬ Held s l e) → Halted (s.execs e)

namespace Occupied

theorem initial : Occupied (InferenceRuntime.initial : State α) where
  execs := fun _ => .init ⟨false, rfl⟩
  entered := fun _ _ h => absurd rfl h
  asking := fun _ _ _ => rfl
  ending := fun _ _ h => by cases h
  retired := fun _ h => by cases h

theorem held_of_managing (h : Occupied s) {e j : Nat}
    (hm : ((s.execs e).callers j).isManaging = true) : Held s (some j) e := by
  have hne : (s.execs e).callers j ≠ .idle := by
    intro hi
    rw [hi] at hm
    cases hm
  have he := h.entered e j hne
  unfold Held
  cases hp : s.threads j with
  | inferring f =>
    obtain rfl : f = e := by simpa [hp, Pc.entered] using he
    rw [h.asking f j hp] at hm
    cases hm
  | _ => simp_all [Pc.entered, Pc.owned, Pc.toStop]

/-- Only the thread that has the executor can be inside its `start` or `stop`. -/
theorem unmanaged (h : Occupied s) (hc : Custody s) {l : Option Nat} {e : Nat} (hl : Held s l e)
    (hi : ∀ i, l = some i → ((s.execs e).callers i).isManaging = false) (j : Nat) :
    ((s.execs e).callers j).isManaging = false := by
  by_contra hm
  have hj := h.held_of_managing (by simpa using hm)
  exact hm (hi j (hc.unique hl hj))

theorem serial (h : Occupied s) (hc : Custody s) (e : Nat) (a : ModelExecutor.Action α) :
    Serial (s.execs e) a := by
  cases a with
  | caller i b wake =>
    intro hcas j
    by_contra hj
    have hj := ModelExecutor.CallerPc.isManaging_of_isChanging (by simpa using hj)
    have hi : ((s.execs e).callers i).isManaging = true := by
      rcases hcas with hi | hi <;> rw [hi] <;> rfl
    have heq := hc.unique (h.held_of_managing hi) (h.held_of_managing hj)
    obtain rfl : i = j := by simpa using heq
    rcases hcas with hi | hi <;> simp_all [ModelExecutor.CallerPc.isChanging]
  | _ => trivial

/-- A thread that is not inside an executor is idle in all of them. -/
theorem idle (h : Occupied s) {i : Nat}
    (hb : ∀ e, (s.threads i).entered = some e → (s.execs e).callers i = .idle) (e : Nat) :
    (s.execs e).callers i = .idle := by
  by_contra hn
  exact hn (hb e (h.entered e i hn))

/-- Thread `i` is in no executor before and after its step. -/
theorem leave (h : Occupied s) {i : Nat} {pc : Pc α} (hcfg : u.configs = s.configs)
    (hex : u.execs = s.execs) (ht : u.threads = Function.update s.threads i pc)
    (hidle : ∀ e, (s.execs e).callers i = .idle) (hen : pc.entered = none)
    (hret : ∀ e < u.created, (∀ l, ¬ Held u l e) → Halted (u.execs e)) : Occupied u := by
  refine ⟨?_, ?_, ?_, ?_, hret⟩
  · rw [hcfg, hex]
    exact h.execs
  · intro e j hj
    rw [hex] at hj
    have hne : j ≠ i := fun he => hj (he ▸ hidle e)
    rw [ht, Function.update_of_ne hne]
    exact h.entered e j hj
  · intro e j hj
    rw [hex]
    rcases eq_or_ne j i with rfl | hne
    · rw [hidle]
      rfl
    · rw [ht, Function.update_of_ne hne] at hj
      exact h.asking e j hj
  · intro e j hj
    rw [hex]
    rcases eq_or_ne j i with rfl | hne
    · rw [ht, Function.update_self] at hj
      have := Pc.entered_of_ending hj
      rw [hen] at this
      cases this
    · rw [ht, Function.update_of_ne hne] at hj
      exact h.ending e j hj

/-- Thread `i` enters executor `e`, whose other callers do nothing. -/
theorem enter (h : Occupied s) {i e : Nat} {x : ModelExecutor.State α} {pc : Pc α}
    (hreach : ∀ f, (ModelExecutor.system (u.configs f)).ReachableUnder Serial (u.execs f))
    (hex : u.execs = Function.update s.execs e x)
    (ht : u.threads = Function.update s.threads i pc)
    (hidle : ∀ f, (s.execs f).callers i = .idle) (hen : pc.entered = some e)
    (hx : ∀ j, j ≠ i → x.callers j = .idle ∨ x.callers j = (s.execs e).callers j)
    (hask : pc = .inferring e → (x.callers i).isManaging = false)
    (hend : pc.ending = some e → Halting x i)
    (hother : ∀ j, j ≠ i → (s.threads j).ending = some e → Halting x j)
    (hret : ∀ f < u.created, (∀ l, ¬ Held u l f) → Halted (u.execs f)) : Occupied u := by
  have hsame (f : Nat) (hf : f ≠ e) : u.execs f = s.execs f := by rw [hex, Function.update_of_ne hf]
  have hself : u.execs e = x := by rw [hex, Function.update_self]
  have hi : u.threads i = pc := by rw [ht, Function.update_self]
  refine ⟨hreach, ?_, ?_, ?_, hret⟩
  · intro f j hj
    rcases eq_or_ne j i with rfl | hne
    · rw [hi, hen]
      by_contra hf
      exact hj (by rw [hsame f fun he => hf (he ▸ rfl)]; exact hidle f)
    · rw [ht, Function.update_of_ne hne]
      rcases eq_or_ne f e with rfl | hf
      · rw [hself] at hj
        rcases hx j hne with h0 | h0
        · exact absurd h0 hj
        · exact h.entered f j (h0 ▸ hj)
      · rw [hsame f hf] at hj
        exact h.entered f j hj
  · intro f j hj
    rcases eq_or_ne j i with rfl | hne
    · obtain rfl : f = e := by
        rw [hi] at hj
        simpa [hj, Pc.entered] using hen
      rw [hself]
      exact hask (hi.symm.trans hj)
    · rw [ht, Function.update_of_ne hne] at hj
      rcases eq_or_ne f e with rfl | hf
      · rw [hself]
        rcases hx j hne with h0 | h0
        · rw [h0]
          rfl
        · rw [h0]
          exact h.asking f j hj
      · rw [hsame f hf]
        exact h.asking f j hj
  · intro f j hj
    rcases eq_or_ne j i with rfl | hne
    · rw [hi] at hj
      obtain rfl : e = f := by simpa [hen] using Pc.entered_of_ending hj
      rw [hself]
      exact hend hj
    · rw [ht, Function.update_of_ne hne] at hj
      rcases eq_or_ne f e with rfl | hf
      · rw [hself]
        exact hother j hne hj
      · rw [hsame f hf]
        exact h.ending f j hj

theorem execs_update (h : Occupied s) (hc : Custody s) {e : Nat} {a : ModelExecutor.Action α}
    {x : ModelExecutor.State α} (hx : ModelExecutor.step (s.configs e) (s.execs e) a = some x)
    (f : Nat) :
    (ModelExecutor.system (s.configs f)).ReachableUnder Serial (Function.update s.execs e x f) := by
  rcases eq_or_ne f e with rfl | hf
  · rw [Function.update_self]
    exact .step (h.execs f) (h.serial hc f a) hx
  · rw [Function.update_of_ne hf]
    exact h.execs f

/-- Whoever dropped the executor had stopped it. -/
theorem halted_of_moves (h : Occupied s) {a : Action α} (hm : Moves workerThreads s a u) {f : Nat}
    (hf : f < s.created) (hn : ∀ l, ¬ Held u l f) : Halted (s.execs f) := by
  by_cases hs : ∃ l, Held s l f
  · obtain ⟨l, hl⟩ := hs
    rcases held_or_dropped hm hl with ⟨k, hk⟩ | ⟨i, hi, hb⟩
    · exact absurd hk (hn k)
    · exact (h.ending f i hi).halted hb
  · exact h.retired f hf fun l hl => hs ⟨l, hl⟩

/-- Thread `i` calls `stop` of an executor that it has or takes out of the map. -/
theorem callStop (h : Occupied s) (hc : Custody s) {i e : Nat} {pc : Pc α} {l : Option Nat}
    (hl : Held s l e) (hli : l = none ∨ l = some i) (hcfg : u.configs = s.configs)
    (hcr : u.created = s.created)
    (hex : u.execs = Function.update s.execs e (ModelExecutor.setCaller (s.execs e) i .stopCas))
    (ht : u.threads = Function.update s.threads i pc)
    (hb : ∀ f, (s.threads i).entered = some f → (s.execs f).callers i = .idle)
    (hend : pc.ending = some e)
    (hret : ∀ f < s.created, (∀ l, ¬ Held u l f) → Halted (s.execs f)) : Occupied u := by
  have hidle := h.idle hb
  have hstep : ModelExecutor.step (s.configs e) (s.execs e) (.callStop i) =
      some (ModelExecutor.setCaller (s.execs e) i .stopCas) := by
    simp [ModelExecutor.step, hidle e]
  have hun := h.unmanaged hc hl fun j _ => by
    by_cases hj : j = i
    · rw [hj, hidle]
      rfl
    · rcases hli with rfl | rfl <;> simp_all
  have hhalt := ModelExecutor.halting_callStop (i := i) hun
  refine h.enter ?_ hex ht hidle (Pc.entered_of_ending hend) ?_ ?_ (fun _ => hhalt) ?_ ?_
  · intro f
    rw [hcfg, hex]
    exact h.execs_update hc hstep f
  · intro j hj
    exact .inr (by simp [ModelExecutor.setCaller, hj])
  · rintro rfl
    cases hend
  · intro j hj hje
    have hheld : Held s (some j) e := Pc.mem_owned_of_ending hje
    have heq := hc.unique hl hheld
    rcases hli with rfl | rfl
    · cases heq
    · exact absurd (Option.some.inj heq).symm hj
  · intro f hf hn
    have hfe : f ≠ e := by
      rintro rfl
      apply hn (some i)
      simp only [Held, ht, Function.update_self]
      exact Pc.mem_owned_of_ending hend
    rw [hex, Function.update_of_ne hfe]
    exact hret f (hcr ▸ hf) hn

theorem forward (h : Occupied s) (hc : Custody s) {i e ns : Nat} {req : InferenceRequest α}
    {x : ModelExecutor.State α} (hi : s.threads i = .forwarding e req)
    (hx : ModelExecutor.step (s.configs e) (s.execs e) (.inferAsync i req ns) = some x)
    (hret : ∀ f < s.created,
      (∀ l, ¬ Held (InferenceRuntime.enter s i e x (.inferring e)) l f) → Halted (s.execs f)) :
    Occupied (InferenceRuntime.enter s i e x (.inferring e)) := by
  have hidle := h.idle (i := i) (by simp [hi, Pc.entered])
  obtain ⟨t, hcall, hstop⟩ := ModelExecutor.step_inferAsync hx
  refine h.enter (h.execs_update hc hx) rfl rfl hidle rfl ?_ ?_ ?_ ?_ ?_
  · intro j hj
    exact .inr (by rw [hcall, Function.update_of_ne hj])
  · intro _
    rw [hcall, Function.update_self]
    rfl
  · intro hend
    cases hend
  · intro j hj hje
    exact (h.ending e j hje).asked hcall hstop hj
  · intro f hf hn
    have hhalt := hret f hf hn
    rcases eq_or_ne f e with rfl | hfe
    · simp only [InferenceRuntime.enter, Function.update_self]
      exact hhalt.asked hcall hstop
    · simp only [InferenceRuntime.enter, Function.update_of_ne hfe]
      exact hhalt

theorem exec (h : Occupied s) (hc : Custody s) {e : Nat} {a : ModelExecutor.Action α}
    {x : ModelExecutor.State α} (ha : a.isInternal = true)
    (hx : ModelExecutor.step (s.configs e) (s.execs e) a = some x)
    (hret : ∀ f < s.created, (∀ l, ¬ Held s l f) → Halted (s.execs f)) :
    Occupied { s with execs := Function.update s.execs e x } := by
  have hk := ModelExecutor.Continues.of_moves ha (ModelExecutor.moves_of_step hx)
  -- What a continuation keeps of executor `e` holds of all of them.
  have hall {P : ModelExecutor.State α → Prop} (f : Nat) (hp : P (s.execs f))
      (hpx : P (s.execs e) → P x) : P (Function.update s.execs e x f) := by
    rcases eq_or_ne f e with rfl | hf
    · rw [Function.update_self]
      exact hpx hp
    · rw [Function.update_of_ne hf]
      exact hp
  refine ⟨h.execs_update hc hx, ?_, ?_, ?_, ?_⟩
  · intro f j hj
    apply h.entered f j
    intro hidle
    refine hj (hall (P := fun y => y.callers j = .idle) f hidle fun h0 => ?_)
    rcases hk.callers j with he | ⟨hn, -⟩
    · exact he.trans h0
    · exact absurd h0 hn
  · intro f j hj
    exact hall (P := fun y => (y.callers j).isManaging = false) f (h.asking f j hj) hk.not_managing
  · intro f j hj
    exact hall (P := fun y => Halting y j) f (h.ending f j hj) hk.halting
  · intro f hf hn
    exact hall (P := Halted) f (hret f hf hn) hk.halted

theorem register (h : Occupied s) (hc : Custody s) {i : Nat} {modelId : String} {m : ModelMetadata}
    (hi : s.threads i = .idle) (hex : u.execs = Function.update s.execs s.created
      (ModelExecutor.setCaller (ModelExecutor.initial (isReady m && m.backend)) i .startCas))
    (hcfg : u.configs = Function.update s.configs s.created (executorConfig workerThreads m))
    (hcr : u.created = s.created + 1)
    (ht : u.threads = Function.update s.threads i (.starting modelId s.created))
    (hret : ∀ f < s.created, (∀ l, ¬ Held u l f) → Halted (s.execs f)) : Occupied u := by
  have hidle := h.idle (i := i) (by simp [hi, Pc.entered])
  refine h.enter ?_ hex ht hidle rfl ?_ ?_ ?_ ?_ ?_
  · intro f
    rcases eq_or_ne f s.created with rfl | hf
    · rw [hex, hcfg, Function.update_self, Function.update_self]
      exact .step (a := .callStart i) (.init ⟨_, rfl⟩) trivial rfl
    · rw [hex, hcfg, Function.update_of_ne hf, Function.update_of_ne hf]
      exact h.execs f
  · intro j hj
    exact .inl (by simp [ModelExecutor.setCaller, ModelExecutor.initial, hj])
  · intro hp
    cases hp
  · intro hp
    cases hp
  · intro j hj hje
    have hheld : Held s (some j) s.created := Pc.mem_owned_of_ending hje
    exact absurd (hc.created _ _ hheld) (lt_irrefl _)
  · intro f hf hn
    have hfe : f ≠ s.created := by
      rintro rfl
      apply hn (some i)
      simp [Held, ht, Pc.owned]
    rw [hex, Function.update_of_ne hfe]
    exact hret f (by omega) hn

theorem moves (h : Occupied s) (hc : Custody s) {a : Action α} (hm : Moves workerThreads s a u) :
    Occupied u := by
  have hret : ∀ f < s.created, (∀ l, ¬ Held u l f) → Halted (s.execs f) :=
    fun f hf hn => h.halted_of_moves hm hf hn
  cases hm with
  | exec he ha hx => exact h.exec hc ha hx hret
  | rejected => exact h
  | register hi => exact h.register hc hi rfl rfl rfl rfl hret
  | refused hi hb =>
    refine h.callStop hc (l := some _) ?_ (.inr rfl) rfl rfl rfl rfl ?_ rfl hret
    · simp [Held, hi, Pc.owned]
    · simpa [hi, Pc.entered] using hb
  | found hi hl hb =>
    refine h.callStop hc (l := none) (mem_values_of_lookup hl) (.inl rfl) rfl rfl rfl rfl ?_ rfl hret
    simp [hi, Pc.entered]
  | stopFirst hi hv hb =>
    refine h.callStop hc (l := none) (hv.mem_iff.mp List.mem_cons_self) (.inl rfl) rfl rfl rfl rfl ?_
      rfl hret
    simp [hi, Pc.entered]
  | stopNext hi hb hf =>
    refine h.callStop hc (l := some _) ?_ (.inr rfl) rfl rfl rfl rfl ?_ rfl hret
    · simp [Held, hi, Pc.owned, Pc.toStop]
    · simpa [hi, Pc.entered] using hb
  | forwarded hi hx => exact h.forward hc hi hx hret
  | emplaced hi hb _ | discarded hi hb | unregistered hi hb | inferred hi hb | stoppedAll hi hb =>
    refine h.leave rfl rfl rfl (h.idle ?_) rfl hret
    simpa [hi, Pc.entered] using hb
  | callUnregister hi | callInfer hi | callShutdown hi | notFound hi | replied hi | routed hi _ _
  | alreadyStopped hi _ | nothingToStop hi _ | returned hi =>
    refine h.leave rfl rfl rfl (h.idle ?_) rfl hret
    simp [hi, Pc.entered]

end Occupied

end Jellybean.Inference.InferenceRuntime
