import Jellybean.Framework.Custody
import Jellybean.Model.ModelExecutorInvariant

namespace Jellybean.Model.ModelExecutor

open Concurrency Inference

/-- Where the promise of a request can be. -/
inductive Place where
  | unissued
  | caller (i : Nat)
  | ticket (k : Nat)
  | fetched (w : Nat)
  | batch (w j : Nat)
  | fulfilled
  deriving DecidableEq

/-- The abstract executor: who holds which promise. `takers` lists who popped ticket 0, 1, ...,
`collected` the promises put into a batch, and `values` counts how often a promise was set. -/
@[ext] structure Ledger where
  issued : Nat
  offers : Nat → Option Nat
  tickets : List Nat
  takers : List Tid
  fetching : Nat → Option Nat
  batches : Nat → Nat → Option Nat
  collected : List Nat
  values : Nat → Nat

namespace Ledger

def empty : Ledger := ⟨0, fun _ => none, [], [], fun _ => none, fun _ _ => none, [], fun _ => 0⟩

def setBatch (l : Ledger) (w j : Nat) (p : Option Nat) : Nat → Nat → Option Nat :=
  Function.update l.batches w (Function.update (l.batches w) j p)

def fulfil (l : Ledger) (p : Nat) : Nat → Nat := Function.update l.values p (l.values p + 1)

/-- A promise is made by a call of `infer_async`, which either sets it itself or hands it to the
queue; a worker takes it from there, puts it into its batch and sets it. -/
inductive Step (l : Ledger) : Ledger → Prop
  | issue {i : Nat} (h : l.offers i = none) :
      Step l { l with
        issued := l.issued + 1
        offers := Function.update l.offers i (some l.issued) }
  | refuse {i p : Nat} (h : l.offers i = some p) :
      Step l { l with offers := Function.update l.offers i none, values := l.fulfil p }
  | push {i p : Nat} (h : l.offers i = some p) :
      Step l { l with offers := Function.update l.offers i none, tickets := l.tickets ++ [p] }
  | take {w : Nat} (h : l.fetching w = none) (ht : l.takers.length < l.tickets.length) :
      Step l { l with
        takers := l.takers ++ [.worker w]
        fetching := Function.update l.fetching w (some l.takers.length) }
  | collect {w k p j : Nat} (h : l.fetching w = some k) (ht : l.tickets[k]? = some p)
      (hb : l.batches w j = none) :
      Step l { l with
        fetching := Function.update l.fetching w none
        batches := l.setBatch w j (some p)
        collected := l.collected ++ [p] }
  | answer {w j p : Nat} (h : l.batches w j = some p) :
      Step l { l with batches := l.setBatch w j none, values := l.fulfil p }

def Held (l : Ledger) : Place → Nat → Prop
  | .unissued, p => l.issued ≤ p
  | .caller i, p => l.offers i = some p
  | .ticket k, p => l.takers.length ≤ k ∧ l.tickets[k]? = some p
  | .fetched w, p => ∃ k, l.fetching w = some k ∧ l.tickets[k]? = some p
  | .batch w j, p => l.batches w j = some p
  | .fulfilled, p => l.values p ≠ 0

/-- A promise has one holder and at most one value, and a worker that popped a ticket is
answerable for its promise until it has set it. -/
structure Sound (l : Ledger) : Prop where
  exclusive : Exclusive l.Held
  once : ∀ p, l.values p ≤ 1
  takers_le : l.takers.length ≤ l.tickets.length
  fetching_lt : ∀ w k, l.fetching w = some k → k < l.takers.length
  duty : ∀ k w p, l.takers[k]? = some (.worker w) → l.tickets[k]? = some p →
    l.fetching w = some k ∨ (∃ j, l.batches w j = some p) ∨ l.values p ≠ 0
  collected_nodup : l.collected.Nodup
  collected_held : ∀ p ∈ l.collected, (∃ w j, l.batches w j = some p) ∨ l.values p ≠ 0

theorem sound_empty : Sound empty where
  exclusive := fun p => ⟨.unissued, Nat.zero_le p, fun k hk => by
    cases k <;> simp_all [Held, empty]⟩
  once := fun _ => Nat.zero_le _
  takers_le := le_rfl
  fetching_lt := fun _ _ h => by cases h
  duty := fun _ _ _ h => by cases h
  collected_nodup := List.nodup_nil
  collected_held := fun _ h => by cases h

theorem Sound.exclusive_step {l m : Ledger} (h : Sound l) (hs : Step l m) : Exclusive m.Held := by
  have hx := h.exclusive
  cases hs with
  | @issue i hi =>
    have hp : l.Held .unissued l.issued := le_rfl
    refine hx.transfer (k := .caller i) hp fun n q => ?_
    cases n with
    | unissued => simp [Held]; omega
    | caller j =>
      simp only [Held, Function.update_apply]
      grind
    | _ => simp [Held]
  | @refuse i p hi =>
    have hp : l.Held (.caller i) p := hi
    refine hx.transfer (k := .fulfilled) hp fun n q => ?_
    cases n with
    | caller j =>
      simp only [Held, Function.update_apply]
      grind
    | fulfilled =>
      simp only [Held, fulfil, Function.update_apply]
      grind
    | _ => simp [Held]
  | @push i p hi =>
    have hp : l.Held (.caller i) p := hi
    refine hx.transfer (k := .ticket l.tickets.length) hp fun n q => ?_
    have := h.takers_le
    have := h.fetching_lt
    cases n with
    | caller j =>
      simp only [Held, Function.update_apply]
      grind
    | ticket k =>
      simp only [Held]
      grind
    | fetched w =>
      simp only [Held]
      grind
    | _ => simp [Held]
  | @take w hw ht =>
    have hp : l.Held (.ticket l.takers.length) l.tickets[l.takers.length] := by simp [Held]
    refine hx.transfer (k := .fetched w) hp fun n q => ?_
    cases n with
    | ticket k =>
      simp only [Held]
      grind
    | fetched v =>
      rcases eq_or_ne v w with rfl | hv
      · simp [Held, hw, List.getElem?_eq_getElem ht, eq_comm]
      · simp [Held, hv]
    | _ => simp [Held]
  | @collect w k p j hw ht hb =>
    have hp : l.Held (.fetched w) p := ⟨k, hw, ht⟩
    refine hx.transfer (k := .batch w j) hp fun n q => ?_
    cases n with
    | fetched w =>
      simp only [Held, Function.update_apply]
      grind
    | batch v i =>
      simp only [Held, setBatch, Function.update_apply]
      grind
    | _ => simp [Held]
  | @answer w j p hb =>
    have hp : l.Held (.batch w j) p := hb
    refine hx.transfer (k := .fulfilled) hp fun n q => ?_
    cases n with
    | batch v i =>
      simp only [Held, setBatch, Function.update_apply]
      grind
    | fulfilled =>
      simp only [Held, fulfil, Function.update_apply]
      grind
    | _ => simp [Held]

theorem Sound.once_step {l m : Ledger} (h : Sound l) (hs : Step l m) (p : Nat) :
    m.values p ≤ 1 := by
  have hx := h.exclusive
  have hp := h.once p
  cases hs with
  | issue _ | push _ | take _ _ | collect _ _ _ => exact hp
  | @refuse i q hi =>
    have hv : ¬ l.values q ≠ 0 := hx.not_held (l := .caller i) (k := .fulfilled) hi (by simp)
    simp only [fulfil, Function.update_apply]
    split_ifs with he
    · subst he
      omega
    · exact hp
  | @answer w j q hb =>
    have hv : ¬ l.values q ≠ 0 := hx.not_held (l := .batch w j) (k := .fulfilled) hb (by simp)
    simp only [fulfil, Function.update_apply]
    split_ifs with he
    · subst he
      omega
    · exact hp

theorem fulfil_ne_zero (l : Ledger) {p q : Nat} (h : l.values p ≠ 0 ∨ p = q) :
    l.fulfil q p ≠ 0 := by
  unfold fulfil
  rcases eq_or_ne p q with rfl | hne
  · simp
  · rw [Function.update_of_ne hne]
    tauto

/-- A promise in a batch stays there or is set. -/
theorem batches_step {l m : Ledger} (hs : Step l m) {w j p : Nat} (hb : l.batches w j = some p) :
    m.batches w j = some p ∨ m.values p ≠ 0 := by
  cases hs with
  | issue _ | push _ | take _ _ | refuse _ => exact .inl hb
  | @collect v k q i _ _ he =>
    refine .inl ?_
    simp only [setBatch, Function.update_apply]
    grind
  | @answer v i q he =>
    simp only [setBatch, Function.update_apply]
    have := fulfil_ne_zero l (p := p) (q := q)
    grind

theorem values_step {l m : Ledger} (hs : Step l m) {p : Nat} (hv : l.values p ≠ 0) :
    m.values p ≠ 0 := by
  cases hs with
  | issue _ | push _ | take _ _ | collect _ _ _ => exact hv
  | refuse _ | answer _ => exact l.fulfil_ne_zero (.inl hv)

/-- A ticket in the hands of a worker stays there or its promise goes into the batch. -/
theorem fetching_step {l m : Ledger} (hs : Step l m) {w k p : Nat} (hf : l.fetching w = some k)
    (hp : l.tickets[k]? = some p) : m.fetching w = some k ∨ ∃ j, m.batches w j = some p := by
  cases hs with
  | issue _ | push _ | refuse _ | answer _ => exact .inl hf
  | @take v hv _ =>
    have hne : w ≠ v := fun e => by simp [e, hv] at hf
    simp [Function.update_of_ne hne, hf]
  | @collect v i q j hv hq _ =>
    rcases eq_or_ne w v with rfl | hne
    · obtain rfl : k = i := by simpa [hf] using hv
      obtain rfl : p = q := by simpa [hp] using hq
      exact .inr ⟨j, by simp [setBatch]⟩
    · simp [Function.update_of_ne hne, hf]

theorem Sound.duty_step {l m : Ledger} (h : Sound l) (hs : Step l m) {k w p : Nat}
    (hk : m.takers[k]? = some (.worker w)) (hp : m.tickets[k]? = some p) :
    m.fetching w = some k ∨ (∃ j, m.batches w j = some p) ∨ m.values p ≠ 0 := by
  have old (h0 : l.takers[k]? = some (.worker w)) (h1 : l.tickets[k]? = some p) :
      m.fetching w = some k ∨ (∃ j, m.batches w j = some p) ∨ m.values p ≠ 0 := by
    rcases h.duty k w p h0 h1 with hf | ⟨j, hb⟩ | hv
    · have := fetching_step hs hf h1
      tauto
    · rcases batches_step hs hb with hb | hv
      · exact .inr (.inl ⟨j, hb⟩)
      · exact .inr (.inr hv)
    · exact .inr (.inr (values_step hs hv))
  cases hs with
  | issue _ | refuse _ | collect _ _ _ | answer _ => exact old hk hp
  | push _ =>
    have hlt : k < l.tickets.length :=
      (List.getElem?_eq_some_iff.mp hk).1.trans_le h.takers_le
    exact old hk (by rwa [List.getElem?_append_left hlt] at hp)
  | @take v _ _ =>
    rcases Nat.lt_or_ge k l.takers.length with hlt | hge
    · exact old (by rwa [List.getElem?_append_left hlt] at hk) hp
    · obtain ⟨rfl, rfl⟩ : k = l.takers.length ∧ w = v := by
        rw [List.getElem?_append_right hge, List.getElem?_singleton] at hk
        split_ifs at hk with h0
        simp only [Option.some.injEq, Tid.worker.injEq] at hk
        omega
      exact .inl (Function.update_self ..)

theorem Sound.collected_step {l m : Ledger} (h : Sound l) (hs : Step l m) :
    m.collected.Nodup ∧ ∀ p ∈ m.collected, (∃ w j, m.batches w j = some p) ∨ m.values p ≠ 0 := by
  have old (p : Nat) (hp : p ∈ l.collected) : (∃ w j, m.batches w j = some p) ∨ m.values p ≠ 0 := by
    rcases h.collected_held p hp with ⟨w, j, hb⟩ | hv
    · rcases batches_step hs hb with hb | hv
      · exact .inl ⟨w, j, hb⟩
      · exact .inr hv
    · exact .inr (values_step hs hv)
  cases hs with
  | issue _ | push _ | take _ _ | refuse _ | answer _ => exact ⟨h.collected_nodup, old⟩
  | @collect w k q j hf hq _ =>
    have hh : l.Held (.fetched w) q := ⟨k, hf, hq⟩
    have hnew : q ∉ l.collected := by
      intro hmem
      rcases h.collected_held q hmem with ⟨v, i, hb⟩ | hv
      · exact h.exclusive.not_held (k := .batch v i) hh (by simp) hb
      · exact h.exclusive.not_held (k := .fulfilled) hh (by simp) hv
    refine ⟨List.nodup_append.mpr ⟨h.collected_nodup, List.nodup_singleton q, ?_⟩, fun p hp => ?_⟩
    · rintro a ha b hb rfl
      exact hnew (List.mem_singleton.mp hb ▸ ha)
    · rcases List.mem_append.mp hp with hp | hp
      · exact old p hp
      · exact .inl ⟨w, j, by simp [setBatch, List.mem_singleton.mp hp]⟩

theorem Sound.step {l m : Ledger} (h : Sound l) (hs : Step l m) : Sound m where
  exclusive := h.exclusive_step hs
  once := h.once_step hs
  takers_le := by
    have := h.takers_le
    cases hs <;> simp <;> omega
  fetching_lt := fun w k hf => by
    have := h.fetching_lt w k
    cases hs with
    | issue _ | push _ | refuse _ | answer _ => exact this hf
    | @take v _ _ =>
      rcases eq_or_ne w v with rfl | hne
      · simp only [Function.update_self, Option.some.injEq] at hf
        simp [hf]
      · simp only [Function.update_of_ne hne] at hf
        simpa using (this hf).trans (Nat.lt_succ_self _)
    | @collect v _ _ _ _ _ _ =>
      rcases eq_or_ne w v with rfl | hne
      · simp at hf
      · simp only [Function.update_of_ne hne] at hf
        exact this hf
  duty := fun _ _ _ => h.duty_step hs
  collected_nodup := (h.collected_step hs).1
  collected_held := (h.collected_step hs).2

end Ledger

variable {α : Type*} {cfg : Config} {s u : State α}

/-- The task a thread outside has not given away. -/
def CallerPc.offer : CallerPc α → MpmcQueue.Phase (Task α) → Option (Task α)
  | .checkReady t, _ | .checkStopped t _, _ | .checkDeadline t _, _ => some t
  | .pushing _ _, .offering t => some t
  | _, _ => none

/-- The task at index `j` of the batch of a worker, unless its promise was set. -/
def WorkerPc.unanswered : WorkerPc α → Nat → Option (Task α)
  | .innerHead batch _ _, j | .popping batch _ _, j | .fetchSub batch _ _, j
  | .checkBackend batch _, j | .inferring batch _, j => batch[j]?
  | .answering batch _ _ _ i, j | .unavailable batch i, j => if i ≤ j then batch[j]? else none
  | _, _ => none

def ticketOf : MpmcQueue.Phase (Task α) → Option Nat
  | .took k => some k
  | _ => none

def State.ledger (s : State α) : Ledger where
  issued := s.issued.length
  offers := fun i => ((s.callers i).offer (s.phase (.caller i))).map Task.promise
  tickets := s.queue.pushed.map fun c => c.item.promise
  takers := s.queue.popped.map MpmcQueue.PopClaim.thread
  fetching := fun w => ticketOf (s.phase (.worker w))
  batches := fun w j => ((s.workers w).unanswered j).map Task.promise
  collected := s.taken.map Taken.promise
  values := fun p => (s.promises p).length

theorem ledger_initial (ready : Bool) : (initial ready : State α).ledger = .empty := rfl

/-- The part of the ledger that a step of a thread outside leaves alone. -/
theorem offers_update {i : Nat} {pc : CallerPc α}
    (hc : u.callers = Function.update s.callers i pc)
    (hf : ∀ x, x ≠ .caller i → u.queue.threads x = s.queue.threads x) :
    u.ledger.offers =
      Function.update s.ledger.offers i ((pc.offer (u.phase (.caller i))).map Task.promise) := by
  funext j
  rcases eq_or_ne j i with rfl | hj
  · simp [State.ledger, hc]
  · simp [State.ledger, hc, hj, State.phase, hf (.caller j) (by simpa using hj)]

theorem fetching_eq (hf : ∀ w, u.queue.threads (.worker w) = s.queue.threads (.worker w)) :
    u.ledger.fetching = s.ledger.fetching := by
  funext w
  simp [State.ledger, State.phase, hf]

theorem offers_eq (hc : u.callers = s.callers)
    (hf : ∀ i, u.queue.threads (.caller i) = s.queue.threads (.caller i)) :
    u.ledger.offers = s.ledger.offers := by
  funext i
  simp [State.ledger, State.phase, hc, hf]

theorem fetching_update {w : Nat}
    (hf : ∀ x, x ≠ .worker w → u.queue.threads x = s.queue.threads x) :
    u.ledger.fetching =
      Function.update s.ledger.fetching w (ticketOf (u.phase (.worker w))) := by
  funext v
  rcases eq_or_ne v w with rfl | hv
  · simp [State.ledger]
  · simp [State.ledger, hv, State.phase, hf (.worker v) (by simpa using hv)]

theorem batches_update {w : Nat} {pc : WorkerPc α}
    (hw : u.workers = Function.update s.workers w pc) :
    u.ledger.batches =
      Function.update s.ledger.batches w fun j => (pc.unanswered j).map Task.promise := by
  funext v j
  rcases eq_or_ne v w with rfl | hv
  · simp [State.ledger, hw]
  · simp [State.ledger, hw, hv]

theorem batches_woken (hw : Woken s.workers u.workers) :
    u.ledger.batches = s.ledger.batches := by
  funext v j
  rcases hw v with he | ⟨ha, he⟩
  · simp [State.ledger, he]
  · simp [State.ledger, he, ha, WorkerPc.unanswered]

/-- A step of the executor is one of the ledger or leaves it as it is. -/
def Refines (s u : State α) : Prop := u.ledger = s.ledger ∨ Ledger.Step s.ledger u.ledger

theorem ledger_callerTurn {i : Nat} {pc : CallerPc α}
    (hpu : u.queue.pushed = s.queue.pushed) (hpo : u.queue.popped = s.queue.popped)
    (hf : ∀ x, x ≠ .caller i → u.queue.threads x = s.queue.threads x)
    (hc : u.callers = Function.update s.callers i pc) (hb : u.ledger.batches = s.ledger.batches)
    (hi : u.issued = s.issued) (hp : u.promises = s.promises) (ht : u.taken = s.taken)
    (ho : pc.offer (u.phase (.caller i)) = (s.callers i).offer (s.phase (.caller i))) :
    u.ledger = s.ledger := by
  refine Ledger.ext ?_ ?_ ?_ ?_ (fetching_eq fun _ => hf _ (by simp)) hb ?_ ?_
  · simp [State.ledger, hi]
  · rw [offers_update hc hf, ho]
    exact Function.update_eq_self ..
  · simp [State.ledger, hpu]
  · simp [State.ledger, hpo]
  · simp [State.ledger, ht]
  · simp [State.ledger, hp]

theorem ledger_caller {i : Nat} {pc : CallerPc α} (hq : u.queue = s.queue)
    (hc : u.callers = Function.update s.callers i pc) (hb : u.ledger.batches = s.ledger.batches)
    (hi : u.issued = s.issued) (hp : u.promises = s.promises) (ht : u.taken = s.taken)
    (ho : pc.offer (s.phase (.caller i)) = (s.callers i).offer (s.phase (.caller i))) :
    u.ledger = s.ledger :=
  ledger_callerTurn (by rw [hq]) (by rw [hq]) (fun _ _ => by rw [hq]) hc hb hi hp ht
    (by rwa [State.phase, hq])

theorem ledger_workerTurn {w : Nat} {pc : WorkerPc α}
    (hpu : u.queue.pushed = s.queue.pushed) (hpo : u.queue.popped = s.queue.popped)
    (hf : ∀ x, x ≠ .worker w → u.queue.threads x = s.queue.threads x)
    (hc : u.callers = s.callers) (hw : u.workers = Function.update s.workers w pc)
    (hi : u.issued = s.issued) (hp : u.promises = s.promises) (ht : u.taken = s.taken)
    (hk : ticketOf (u.phase (.worker w)) = ticketOf (s.phase (.worker w)))
    (hu : ∀ j, pc.unanswered j = (s.workers w).unanswered j) : u.ledger = s.ledger := by
  refine Ledger.ext ?_ (offers_eq hc fun i => hf _ (by simp)) ?_ ?_ ?_ ?_ ?_ ?_
  · simp [State.ledger, hi]
  · simp [State.ledger, hpu]
  · simp [State.ledger, hpo]
  · rw [fetching_update hf, hk]
    exact Function.update_eq_self ..
  · rw [batches_update hw]
    simp only [hu]
    exact Function.update_eq_self ..
  · simp [State.ledger, ht]
  · simp [State.ledger, hp]

theorem ledger_worker {w : Nat} {pc : WorkerPc α} (hq : u.queue = s.queue)
    (hc : u.callers = s.callers) (hw : u.workers = Function.update s.workers w pc)
    (hi : u.issued = s.issued) (hp : u.promises = s.promises) (ht : u.taken = s.taken)
    (hu : ∀ j, pc.unanswered j = (s.workers w).unanswered j) : u.ledger = s.ledger :=
  ledger_workerTurn (by rw [hq]) (by rw [hq]) (fun _ _ => by rw [hq]) hc hw hi hp ht
    (by rw [State.phase, hq, State.phase]) hu

theorem refines_reply {i : Nat} {t : Task α} {text : String}
    (ho : (s.callers i).offer (s.phase (.caller i)) = some t) : Refines s (reply s i t text) := by
  have hl : (reply s i t text).ledger =
      { s.ledger with
        offers := Function.update s.ledger.offers i none
        values := s.ledger.fulfil t.promise } := by
    refine Ledger.ext rfl ?_ rfl rfl rfl rfl rfl ?_
    · exact offers_update (s := s) (u := reply s i t text) rfl fun _ _ => rfl
    · funext p
      simp only [State.ledger, reply, setValue, Ledger.fulfil, Function.update_apply]
      split_ifs <;> simp
  refine .inr (hl ▸ .refuse ?_)
  simp [State.ledger, ho]

/-- A push that claims a ticket hands its promise to the queue. -/
theorem refines_pushStep (h : Coherent s) {i : Nat} {t : Task α} {d : Nat} {b : Bool}
    {q : MpmcQueue.State Tid (Task α)} (hc : s.callers i = .pushing t d)
    (hq : queueStep s (.advance (.caller i) b) = some q) : Refines s { s with queue := q } := by
  have hi := h.callers i
  rw [hc] at hi
  have hm := queueStep_advance hq
  have hcs : s.callers = Function.update s.callers i (.pushing t d) :=
    (Function.update_eq_self_iff.mpr hc.symm).symm
  have ho := offers_update (s := s) (u := { s with queue := q }) hcs fun x hx => hm.frame hx
  have hfe : ({ s with queue := q } : State α).ledger.fetching = s.ledger.fetching :=
    fetching_eq fun w => hm.frame (by simp)
  cases hm.effect with
  | quiet hl hp hd =>
    refine .inl (Ledger.ext rfl ?_ ?_ ?_ hfe rfl rfl rfl)
    · rw [ho]
      exact Function.update_eq_self_iff.mpr (by simp [State.ledger, State.phase, hl, hc])
    · simp [State.ledger, hp]
    · simp [State.ledger, hd]
  | @claimedPush item h0 h1 hp hd =>
    have hl : ({ s with queue := q } : State α).ledger =
        { s.ledger with
          offers := Function.update s.ledger.offers i none
          tickets := s.ledger.tickets ++ [item.promise] } := by
      refine Ledger.ext rfl ?_ ?_ ?_ hfe rfl rfl rfl
      · rw [ho]
        simp [State.phase, h1, CallerPc.offer]
      · simp [State.ledger, hp]
      · simp [State.ledger, hd]
    refine .inr (hl ▸ .push ?_)
    simp [State.ledger, State.phase, h0, hc, CallerPc.offer]
  | claimedPop h0 _ _ _ => rcases hi with hi | hi <;> simp [State.phase, h0] at hi

/-- A pop that claims a ticket takes its promise out of the queue. -/
theorem refines_popStep (h : Coherent s) {w : Nat} {batch : List (Task α)} {waits : List Nat}
    {first : Nat} {b : Bool} {q : MpmcQueue.State Tid (Task α)}
    (hw : s.workers w = .popping batch waits first)
    (hq : queueStep s (.advance (.worker w) b) = some q) : Refines s { s with queue := q } := by
  have hi := h.workers w
  rw [hw] at hi
  have hm := queueStep_advance hq
  have ho : ({ s with queue := q } : State α).ledger.offers = s.ledger.offers :=
    offers_eq rfl fun i => hm.frame (by simp)
  have hfe := fetching_update (s := s) (u := { s with queue := q }) fun x hx => hm.frame hx
  cases hm.effect with
  | quiet hl hp hd =>
    refine .inl (Ledger.ext rfl ho ?_ ?_ ?_ rfl rfl rfl)
    · simp [State.ledger, hp]
    · simp [State.ledger, hd]
    · rw [hfe]
      exact Function.update_eq_self_iff.mpr (by simp [State.ledger, State.phase, hl])
  | claimedPush h0 _ _ _ => rcases hi with hi | ⟨k, hi⟩ <;> simp [State.phase, h0] at hi
  | claimedPop h0 h1 hp hd =>
    have hr := h.ring
    have hr' : MpmcQueue.RingInv capacity q := hr.step hq
    have hl : ({ s with queue := q } : State α).ledger =
        { s.ledger with
          takers := s.ledger.takers ++ [.worker w]
          fetching := Function.update s.ledger.fetching w (some s.ledger.takers.length) } := by
      refine Ledger.ext rfl ho ?_ ?_ ?_ rfl rfl rfl
      · simp [State.ledger, hp]
      · simp [State.ledger, hd]
      · rw [hfe]
        simp [State.ledger, State.phase, h1, ticketOf, hr.popped_length]
    refine .inr (hl ▸ .take ?_ ?_)
    · simp [State.ledger, State.phase, h0, ticketOf]
    · have := hr'.dequeue_le_enqueue
      rw [← hr'.popped_length, ← hr'.pushed_length, hp, hd] at this
      simpa [State.ledger] using this

/-- The popped task goes to the end of the batch. -/
theorem refines_popped (h : Coherent s) {w : Nat} {batch : List (Task α)} {waits : List Nat}
    {first pos : Nat} {t : Task α} {pc : WorkerPc α} {e : Taken}
    (hw : s.workers w = .popping batch waits first)
    (hl : s.queue.threads (.worker w) = .popSucceeded pos (some t))
    (hq : u.queue = s.queue.set (.worker w) .idle) (hcs : u.callers = s.callers)
    (hws : u.workers = Function.update s.workers w pc)
    (hpc : ∀ j, pc.unanswered j = (batch ++ [t])[j]?) (hi : u.issued = s.issued)
    (hp : u.promises = s.promises) (ht : u.taken = s.taken ++ [e]) (he : e.promise = t.promise) :
    Refines s u := by
  obtain ⟨c, hc, hit⟩ := h.ring.popSucceeded_item hl
  obtain rfl : t = c.item := by simpa using hit
  have hf (x : Tid) (hx : x ≠ .worker w) : u.queue.threads x = s.queue.threads x := by
    simp [hq, Function.update_of_ne hx]
  have hle : u.ledger =
      { s.ledger with
        fetching := Function.update s.ledger.fetching w none
        batches := s.ledger.setBatch w batch.length (some c.item.promise)
        collected := s.ledger.collected ++ [c.item.promise] } := by
    refine Ledger.ext ?_ (offers_eq hcs fun i => hf _ (by simp)) ?_ ?_ ?_ ?_ ?_ ?_
    · simp [State.ledger, hi]
    · simp [State.ledger, hq]
    · simp [State.ledger, hq]
    · rw [fetching_update hf]
      simp [State.phase, hq, MpmcQueue.Local.phase, ticketOf]
    · rw [batches_update hws]
      unfold Ledger.setBatch
      congr 1
      funext j
      rcases eq_or_ne j batch.length with rfl | hj
      · simp [hpc]
      · have hb : (batch ++ [c.item])[j]? = batch[j]? := by grind
        rw [Function.update_of_ne hj, hpc, hb]
        simp [State.ledger, hw, WorkerPc.unanswered]
    · simp [State.ledger, ht, he]
    · simp [State.ledger, hp]
  refine .inr (hle ▸ .collect (k := pos) ?_ ?_ ?_)
  · simp [State.ledger, State.phase, hl, MpmcQueue.Local.phase, ticketOf]
  · simp [State.ledger, hc]
  · simp [State.ledger, hw, WorkerPc.unanswered]

/-- A worker sets the promise at index `i` of its batch. -/
theorem refines_answer {w i : Nat} {batch : List (Task α)} {t : Task α} {pc : WorkerPc α}
    {v : InferenceResponse} (ht : batch[i]? = some t)
    (hold : ∀ j, (s.workers w).unanswered j = if i ≤ j then batch[j]? else none)
    (hnew : ∀ j, pc.unanswered j = if i + 1 ≤ j then batch[j]? else none) :
    Refines s { s with
      workers := Function.update s.workers w pc
      promises := setValue s t.promise v } := by
  have hle : ({ s with
        workers := Function.update s.workers w pc
        promises := setValue s t.promise v } : State α).ledger =
      { s.ledger with
        batches := s.ledger.setBatch w i none
        values := s.ledger.fulfil t.promise } := by
    refine Ledger.ext rfl rfl rfl rfl rfl ?_ rfl ?_
    · refine (batches_update rfl).trans ?_
      unfold Ledger.setBatch
      congr 1
      funext j
      rcases eq_or_ne j i with rfl | hj
      · simp [hnew]
      · have hlt : i + 1 ≤ j ↔ i ≤ j := by omega
        rw [Function.update_of_ne hj]
        simp only [State.ledger, hnew, hold, hlt]
    · funext p
      simp only [State.ledger, setValue, Ledger.fulfil, Function.update_apply]
      split_ifs <;> simp
  refine .inr (hle ▸ .answer ?_)
  simp [State.ledger, hold, ht]

theorem unanswered_leaveInner (batch : List (Task α)) (waits : List Nat) (j : Nat) :
    (leaveInner batch waits).unanswered j = batch[j]? := by
  unfold leaveInner
  split_ifs with hb
  · simp [hb, WorkerPc.unanswered]
  · rfl

theorem refines_callerMoves (h : Coherent s) {i : Nat} (hm : CallerMoves cfg s i u) :
    Refines s u := by
  cases hm with
  | ready hc | retry hc | notifyNone hc _ | started hc _ | startRefused hc
  | spawnedAll hc _ | stopRefused hc _ | stopping hc _ | stopLocked hc _ | stopUnlocked hc
  | joined hc _ _ | stopDone hc _ =>
    exact .inl (ledger_caller rfl rfl rfl rfl rfl rfl (by rw [hc]; rfl))
  | notReady hc | executorStopped hc | timeout hc =>
    exact refines_reply (by rw [hc]; rfl)
  | notifyOne hc _ ha =>
    exact .inl (ledger_caller rfl rfl (batches_woken (woken_wakeOne ha)) rfl rfl rfl
      (by rw [hc]; rfl))
  | notifyAll hc =>
    exact .inl (ledger_caller rfl rfl (batches_woken (woken_wakeAll s)) rfl rfl rfl
      (by rw [hc]; rfl))
  | spawn hc _ =>
    refine .inl (ledger_caller rfl rfl ?_ rfl rfl rfl (by rw [hc]; rfl))
    refine (batches_update rfl).trans (Function.update_eq_self_iff.mpr ?_)
    simp [State.ledger, h.unborn _ le_rfl, WorkerPc.unanswered]
  | beginPush hc _ hq =>
    obtain rfl := queueStep_callPush hq
    refine .inl (ledger_callerTurn rfl rfl (set_frame s) rfl rfl rfl rfl rfl ?_)
    simp [hc, State.phase, MpmcQueue.Local.phase, CallerPc.offer]
  | pushed hc hl hq =>
    obtain rfl := queueStep_ret hq
    refine .inl (ledger_callerTurn rfl rfl (set_frame s) rfl rfl rfl rfl rfl ?_)
    simp [hc, hl, State.phase, MpmcQueue.Local.phase, CallerPc.offer]
  | refused hc hl hq =>
    obtain rfl := queueStep_ret hq
    refine .inl (ledger_callerTurn rfl rfl (set_frame s) rfl rfl rfl rfl rfl ?_)
    simp [hc, hl, State.phase, MpmcQueue.Local.phase, CallerPc.offer]
  | pushStep hc hq => exact refines_pushStep h hc hq

theorem refines_workerMoves (h : Coherent s) {w : Nat} (hm : WorkerMoves cfg s w u) :
    Refines s u := by
  cases hm with
  | exit hw _ | enter hw | fetchSub hw | sizePositive hw | sizeZero hw _ | sawStopped hw
  | predicateFalse hw | sleep hw | unlocked hw | available hw =>
    exact .inl (ledger_worker rfl rfl rfl rfl rfl rfl fun j => by rw [hw]; rfl)
  | locked hw _ =>
    refine .inl (ledger_worker rfl rfl rfl rfl rfl rfl fun j => ?_)
    rcases hw with hw | hw <;> rw [hw] <;> rfl
  | gone hw =>
    exact .inl (ledger_worker rfl rfl rfl rfl rfl rfl fun j => by simp [hw, WorkerPc.unanswered])
  | leave hw =>
    refine .inl (ledger_worker rfl rfl rfl rfl rfl rfl fun j => ?_)
    rw [unanswered_leaveInner, hw]
    rfl
  | answered hw hi | refusedAll hw hi =>
    refine .inl (ledger_worker rfl rfl rfl rfl rfl rfl fun j => ?_)
    simp only [hw, WorkerPc.unanswered]
    split_ifs with hj
    · exact (List.getElem?_eq_none (hi.trans hj)).symm
    · rfl
  | answer hw ht _ _ | refuse hw ht =>
    exact refines_answer ht (fun j => by rw [hw]; rfl) fun j => rfl
  | beginPop hw hq =>
    have hk := h.worker_idle (w := w) (by simp [hw])
    obtain rfl := queueStep_callPop hq
    refine .inl (ledger_workerTurn rfl rfl (set_frame s) rfl rfl rfl rfl rfl ?_ ?_)
    · rw [hk]
      simp [State.phase, MpmcQueue.Local.phase, ticketOf]
    · intro j
      rw [hw]
      rfl
  | popped hw hl hq =>
    exact refines_popped h hw hl (queueStep_ret hq) rfl rfl (fun _ => rfl) rfl rfl rfl rfl
  | @popFailed batch waits _ _ _ hw hl hq hpc =>
    obtain rfl := queueStep_ret hq
    refine .inl (ledger_workerTurn rfl rfl (set_frame s) rfl rfl rfl rfl rfl ?_ ?_)
    · simp [hl, State.phase, MpmcQueue.Local.phase, ticketOf]
    · intro j
      rw [hw]
      rcases hpc with rfl | rfl
      · exact unanswered_leaveInner batch waits j
      · rfl
  | popStep hw hq => exact refines_popStep h hw hq

theorem refines_inferAsync {i : Nat} {t : Task α} (hc : s.callers i = .idle)
    (ht : t.promise = s.issued.length) (hcs : u.callers = Function.update s.callers i (.checkReady t))
    (hq : u.queue = s.queue) (hw : u.workers = s.workers) (hi : u.issued = s.issued ++ [t])
    (hp : u.promises = s.promises) (hta : u.taken = s.taken) : Refines s u := by
  have hle : u.ledger =
      { s.ledger with
        issued := s.ledger.issued + 1
        offers := Function.update s.ledger.offers i (some s.ledger.issued) } := by
    refine Ledger.ext ?_ ?_ ?_ ?_ (fetching_eq fun _ => by rw [hq]) ?_ ?_ ?_
    · simp [State.ledger, hi]
    · rw [offers_update hcs fun _ _ => by rw [hq]]
      simp [CallerPc.offer, ht, State.ledger]
    · simp [State.ledger, hq]
    · simp [State.ledger, hq]
    · simp [State.ledger, hw]
    · simp [State.ledger, hta]
    · simp [State.ledger, hp]
  refine .inr (hle ▸ .issue ?_)
  simp [State.ledger, hc, CallerPc.offer]

theorem refines_of_moves (h : Coherent s) {a : Action α} (hm : Moves cfg s a u) : Refines s u := by
  cases hm with
  | inferAsync _ _ hc => exact refines_inferAsync hc rfl rfl rfl rfl rfl rfl rfl
  | callStart hc | callStop hc =>
    exact .inl (ledger_caller rfl rfl rfl rfl rfl rfl (by rw [hc]; rfl))
  | caller hm => exact refines_callerMoves h hm
  | worker hm => exact refines_workerMoves h hm
  | inferBatch hw _ =>
    exact .inl (ledger_worker rfl rfl rfl rfl rfl rfl fun j => by simp [hw, WorkerPc.unanswered])
  | spuriousWake ha =>
    exact .inl (Ledger.ext rfl rfl rfl rfl rfl (batches_woken (woken_wakeOne ha)) rfl rfl)
  | tick _ | setReady _ => exact .inl rfl

/-- The executor refines its ledger, so every reachable ledger is sound. -/
theorem sound_of_reachable (h : (system cfg).Reachable s) : s.ledger.Sound := by
  refine (h.invariant (P := fun s => Coherent s ∧ s.ledger.Sound) ?_ fun s a u hp ht => ?_).2
  · rintro _ ⟨ready, rfl⟩
    exact ⟨coherent_initial ready, ledger_initial (α := α) ready ▸ Ledger.sound_empty⟩
  · have hm := moves_of_step ht
    refine ⟨hp.1.moves hm, ?_⟩
    rcases refines_of_moves hp.1 hm with he | hs
    · rw [he]
      exact hp.2
    · exact hp.2.step hs

end Jellybean.Model.ModelExecutor
