import Jellybean.Concurrency.MpmcQueueTickets

namespace Jellybean.Concurrency.MpmcQueue

variable {ι α : Type*}

/-- Some operation has claimed a ticket and not yet stored the sequence number that ends it. -/
def Unfinished (s : State ι α) : Prop :=
  ∃ i k, (s.threads i).Pushing k ∨ (s.threads i).Popping k

/-- Some push has claimed a ticket and not yet published it. -/
def Unpublished (s : State ι α) : Prop := ∃ i k, (s.threads i).Pushing k

def Quiescent (s : State ι α) : Prop := ∀ i, s.threads i = .idle

/-- The items pushed and not popped, oldest first. -/
def contents (s : State ι α) : List α := (s.pushed.drop s.popped.length).map PushClaim.item

namespace RingInv

variable {c : Capacity} {s : State ι α}

theorem enqueue_le_lap (h : RingInv c s) : s.enqueuePos ≤ s.dequeuePos + c.val := by
  obtain ⟨t, ht, hte, htd, -⟩ := h.slots _ (c.slot_lt s.dequeuePos)
  rcases Nat.lt_or_ge s.dequeuePos t with hlt | hge
  · have := c.slot_gap ht.symm hlt
    omega
  · omega

/-- However stale `pos` is, a sequence number below it means a full lap of unpopped items
or an operation still at work on the slot. -/
theorem behind_push (h : RingInv c s) {pos : Nat} (hpos : pos ≤ s.enqueuePos)
    (hq : s.sequence (c.slot pos) < pos) :
    c.val ≤ s.enqueuePos - s.dequeuePos ∨ Unfinished s := by
  obtain ⟨t, ht, -, -, hf⟩ := h.slots _ (c.slot_lt pos)
  rcases hf with ⟨h1, -, -, h4⟩ | ⟨h1, h2, -, h4⟩
  · obtain ⟨i, hi⟩ := h4 (by omega)
    exact .inr ⟨i, t, .inl hi⟩
  · have hgap := c.slot_gap ht (by omega)
    rcases Nat.lt_or_ge t s.dequeuePos with hlt | hge
    · obtain ⟨i, hi⟩ := h4 hlt
      exact .inr ⟨i, t, .inr hi⟩
    · left
      omega

theorem behind_pop (h : RingInv c s) {pos : Nat} (hpos : pos ≤ s.dequeuePos)
    (hq : s.sequence (c.slot pos) < pos + 1) :
    s.enqueuePos = s.dequeuePos ∨ Unpublished s := by
  have hde := h.dequeue_le_enqueue
  obtain ⟨t, ht, hte, -, hf⟩ := h.slots _ (c.slot_lt pos)
  rcases hf with ⟨h1, h2, -, h4⟩ | ⟨h1, h2, -, -⟩
  · rcases Nat.lt_or_ge t s.enqueuePos with hlt | hge
    · obtain ⟨i, hi⟩ := h4 hlt
      exact .inr ⟨i, t, hi⟩
    · left
      omega
  · have hgap := c.slot_gap ht (by omega)
    left
    omega

theorem contents_length (h : RingInv c s) :
    (contents s).length = s.enqueuePos - s.dequeuePos := by
  simp [contents, h.pushed_length, h.popped_length]

theorem pushed_sub_popped (h : RingInv c s) :
    (s.pushed.length - s.popped.length : Int) = (contents s).length := by
  have hle := h.dequeue_le_enqueue
  rw [h.contents_length, h.pushed_length, h.popped_length]
  omega

/-- With nobody at work the slot of the next push shows whether there is room. -/
theorem quiescent_push (h : RingInv c s) (hz : Quiescent s) :
    (s.sequence (c.slot s.enqueuePos) = s.enqueuePos ∧ s.enqueuePos < s.dequeuePos + c.val) ∨
    (s.sequence (c.slot s.enqueuePos) < s.enqueuePos ∧ s.enqueuePos = s.dequeuePos + c.val) := by
  have hlap := h.enqueue_le_lap
  have hde := h.dequeue_le_enqueue
  have hcap := c.two_le
  obtain ⟨t, ht, hte, htd, hf⟩ := h.slots _ (c.slot_lt s.enqueuePos)
  rcases hf with ⟨h1, h2, -, h4⟩ | ⟨h1, h2, -, h4⟩
  · have hle : s.enqueuePos ≤ t := by
      by_contra hlt
      obtain ⟨i, hi⟩ := h4 (by omega)
      rw [hz i] at hi
      exact hi
    have := c.eq_of_slot ht (by omega) (by omega)
    left
    omega
  · have hge : s.dequeuePos ≤ t := by
      by_contra hlt
      obtain ⟨i, hi⟩ := h4 (by omega)
      rw [hz i] at hi
      exact hi
    have := c.slot_gap ht h2
    right
    omega

theorem quiescent_pop (h : RingInv c s) (hz : Quiescent s) :
    (s.sequence (c.slot s.dequeuePos) = s.dequeuePos + 1 ∧ s.dequeuePos < s.enqueuePos) ∨
    (s.sequence (c.slot s.dequeuePos) < s.dequeuePos + 1 ∧ s.dequeuePos = s.enqueuePos) := by
  have hde := h.dequeue_le_enqueue
  obtain ⟨t, ht, hte, htd, hf⟩ := h.slots _ (c.slot_lt s.dequeuePos)
  rcases hf with ⟨h1, h2, -, h4⟩ | ⟨h1, h2, -, h4⟩
  · have := c.eq_of_slot ht (by omega) (by omega)
    have hle : s.enqueuePos ≤ t := by
      by_contra hlt
      obtain ⟨i, hi⟩ := h4 (by omega)
      rw [hz i] at hi
      exact hi
    right
    omega
  · have hge : s.dequeuePos ≤ t := by
      by_contra hlt
      obtain ⟨i, hi⟩ := h4 (by omega)
      rw [hz i] at hi
      exact hi
    have := c.eq_of_slot ht (by omega) (by omega)
    left
    omega

end RingInv

inductive Op (α : Type*) where
  | push (item : α)
  | pop

/-- What the caller gets back; a rejected item is still in its hands. -/
inductive Outcome (α : Type*) where
  | accepted
  | rejected (item : α)
  | taken (item : Option α)
  | empty
  deriving DecidableEq

def Op.call (i : ι) : Op α → Action ι α
  | .push item => .callPush i item
  | .pop => .callPop i

def Local.outcome : Local α → Option (Outcome α)
  | .pushSucceeded => some .accepted
  | .pushFailed item => some (.rejected item)
  | .popSucceeded _ item => some (.taken item)
  | .popFailed => some .empty
  | _ => none

/-- The bounded queue the ring stands for. -/
def fifoStep (cap : Nat) (q : List α) : Op α → Outcome α × List α
  | .push item => if q.length < cap then (.accepted, q ++ [item]) else (.rejected item, q)
  | .pop =>
    match q with
    | [] => (.empty, [])
    | item :: rest => (.taken (some item), rest)

def fifoRun (cap : Nat) : List α → List (Op α) → List (Outcome α) × List α
  | q, [] => ([], q)
  | q, op :: ops =>
    let (r, q') := fifoStep cap q op
    let (rs, q'') := fifoRun cap q' ops
    (r :: rs, q'')

variable [DecidableEq ι]

/-- One call of thread `i` during which no other thread takes a step. -/
def SoloCall (w : SizeT) (c : Capacity) (s : State ι α) (i : ι) (op : Op α) (r : Outcome α)
    (t : State ι α) : Prop :=
  ∃ bs u, (system w c).run s (op.call i :: List.map (Action.advance i) bs) = some u ∧
    (u.threads i).outcome = some r ∧ step w c u (.ret i) = some t

/-- Calls by any threads, each starting after the one before has returned. -/
inductive SoloCalls (w : SizeT) (c : Capacity) :
    State ι α → List (ι × Op α) → List (Outcome α) → State ι α → Prop
  | nil (s : State ι α) : SoloCalls w c s [] [] s
  | cons {s t u : State ι α} {i : ι} {op : Op α} {ops : List (ι × Op α)} {r : Outcome α}
      {rs : List (Outcome α)} : SoloCall w c s i op r t → SoloCalls w c t ops rs u →
      SoloCalls w c s ((i, op) :: ops) (r :: rs) u

/-- The states a push by thread `i` running alone from `s` can go through. -/
inductive SoloPush (c : Capacity) (s : State ι α) (i : ι) (item : α) : State ι α → Prop
  | start : SoloPush c s i item (s.set i (.pushLoadPos item))
  | load : SoloPush c s i item (s.set i (.pushLoadSeq item s.enqueuePos))
  | full (hq : s.sequence (c.slot s.enqueuePos) < s.enqueuePos) :
      SoloPush c s i item (s.set i (.pushFailed item))
  | cas (hq : s.sequence (c.slot s.enqueuePos) = s.enqueuePos) :
      SoloPush c s i item (s.set i (.pushCas item s.enqueuePos))
  | claimed (hq : s.sequence (c.slot s.enqueuePos) = s.enqueuePos) :
      SoloPush c s i item { s with
        threads := Function.update s.threads i (.pushConstruct item s.enqueuePos)
        enqueuePos := s.enqueuePos + 1
        pushed := s.pushed ++ [⟨s.enqueuePos, i, item⟩] }
  | constructed (hq : s.sequence (c.slot s.enqueuePos) = s.enqueuePos) :
      SoloPush c s i item { s with
        threads := Function.update s.threads i (.pushPublish s.enqueuePos)
        enqueuePos := s.enqueuePos + 1
        storage := Function.update s.storage (c.slot s.enqueuePos) (some item)
        pushed := s.pushed ++ [⟨s.enqueuePos, i, item⟩] }
  | published (hq : s.sequence (c.slot s.enqueuePos) = s.enqueuePos) :
      SoloPush c s i item { s with
        threads := Function.update s.threads i .pushSucceeded
        sequence := Function.update s.sequence (c.slot s.enqueuePos) (s.enqueuePos + 1)
        enqueuePos := s.enqueuePos + 1
        storage := Function.update s.storage (c.slot s.enqueuePos) (some item)
        pushed := s.pushed ++ [⟨s.enqueuePos, i, item⟩] }

theorem SoloPush.advance {c : Capacity} {s u v : State ι α} {i : ι} {item : α} {b : Bool}
    (hle : s.sequence (c.slot s.enqueuePos) ≤ s.enqueuePos) (h : SoloPush c s i item u)
    (ha : MpmcQueue.advance .ideal c u i b = some v) : SoloPush c s i item v := by
  cases h with
  | start =>
    simp only [MpmcQueue.advance, State.set, Function.update_self, Function.update_idem,
      Option.some.injEq] at ha
    subst ha
    exact .load
  | load =>
    simp only [MpmcQueue.advance, State.set, Function.update_self, Function.update_idem,
      SizeT.ideal] at ha
    rcases hle.lt_or_eq with hlt | heq
    · rw [if_neg (by omega), if_pos (by omega)] at ha
      cases ha
      exact .full hlt
    · rw [if_pos (by omega)] at ha
      cases ha
      exact .cas heq
  | full hq => simp [MpmcQueue.advance, State.set] at ha
  | cas hq =>
    simp only [MpmcQueue.advance, State.set, Function.update_self, Function.update_idem,
      SizeT.ideal, id, true_and] at ha
    split_ifs at ha
    · cases ha
      exact .claimed hq
    · cases ha
      exact .load
  | claimed hq =>
    simp only [MpmcQueue.advance, Function.update_self, Function.update_idem,
      Option.some.injEq] at ha
    subst ha
    exact .constructed hq
  | constructed hq =>
    simp only [MpmcQueue.advance, Function.update_self, Function.update_idem, SizeT.ideal, id,
      Option.some.injEq] at ha
    subst ha
    exact .published hq
  | published hq => simp [MpmcQueue.advance] at ha

/-- The states a pop by thread `i` running alone from `s` can go through. -/
inductive SoloPop (c : Capacity) (s : State ι α) (i : ι) : State ι α → Prop
  | start : SoloPop c s i (s.set i .popLoadPos)
  | load : SoloPop c s i (s.set i (.popLoadSeq s.dequeuePos))
  | empty (hq : s.sequence (c.slot s.dequeuePos) < s.dequeuePos + 1) :
      SoloPop c s i (s.set i .popFailed)
  | cas (hq : s.sequence (c.slot s.dequeuePos) = s.dequeuePos + 1) :
      SoloPop c s i (s.set i (.popCas s.dequeuePos))
  | claimed (hq : s.sequence (c.slot s.dequeuePos) = s.dequeuePos + 1) :
      SoloPop c s i { s with
        threads := Function.update s.threads i (.popMove s.dequeuePos)
        dequeuePos := s.dequeuePos + 1
        popped := s.popped ++ [⟨s.dequeuePos, i⟩] }
  | moved (hq : s.sequence (c.slot s.dequeuePos) = s.dequeuePos + 1) :
      SoloPop c s i { s with
        threads := Function.update s.threads i
          (.popDestroy s.dequeuePos (s.storage (c.slot s.dequeuePos)))
        dequeuePos := s.dequeuePos + 1
        popped := s.popped ++ [⟨s.dequeuePos, i⟩] }
  | destroyed (hq : s.sequence (c.slot s.dequeuePos) = s.dequeuePos + 1) :
      SoloPop c s i { s with
        threads := Function.update s.threads i
          (.popRelease s.dequeuePos (s.storage (c.slot s.dequeuePos)))
        dequeuePos := s.dequeuePos + 1
        storage := Function.update s.storage (c.slot s.dequeuePos) none
        popped := s.popped ++ [⟨s.dequeuePos, i⟩] }
  | released (hq : s.sequence (c.slot s.dequeuePos) = s.dequeuePos + 1) :
      SoloPop c s i { s with
        threads := Function.update s.threads i
          (.popSucceeded s.dequeuePos (s.storage (c.slot s.dequeuePos)))
        sequence := Function.update s.sequence (c.slot s.dequeuePos) (s.dequeuePos + c.val)
        dequeuePos := s.dequeuePos + 1
        storage := Function.update s.storage (c.slot s.dequeuePos) none
        popped := s.popped ++ [⟨s.dequeuePos, i⟩]
        finished := s.finished ++ [(s.dequeuePos, s.storage (c.slot s.dequeuePos))] }

theorem SoloPop.advance {c : Capacity} {s u v : State ι α} {i : ι} {b : Bool}
    (hle : s.sequence (c.slot s.dequeuePos) ≤ s.dequeuePos + 1) (h : SoloPop c s i u)
    (ha : MpmcQueue.advance .ideal c u i b = some v) : SoloPop c s i v := by
  cases h with
  | start =>
    simp only [MpmcQueue.advance, State.set, Function.update_self, Function.update_idem,
      Option.some.injEq] at ha
    subst ha
    exact .load
  | load =>
    simp only [MpmcQueue.advance, State.set, Function.update_self, Function.update_idem,
      SizeT.ideal, id] at ha
    rcases hle.lt_or_eq with hlt | heq
    · rw [if_neg (by omega), if_pos (by omega)] at ha
      cases ha
      exact .empty hlt
    · rw [if_pos (by omega)] at ha
      cases ha
      exact .cas heq
  | empty hq => simp [MpmcQueue.advance, State.set] at ha
  | cas hq =>
    simp only [MpmcQueue.advance, State.set, Function.update_self, Function.update_idem,
      SizeT.ideal, id, true_and] at ha
    split_ifs at ha
    · cases ha
      exact .claimed hq
    · cases ha
      exact .load
  | claimed hq =>
    simp only [MpmcQueue.advance, State.set, Function.update_self, Function.update_idem,
      Option.some.injEq] at ha
    subst ha
    exact .moved hq
  | moved hq =>
    simp only [MpmcQueue.advance, Function.update_self, Function.update_idem,
      Option.some.injEq] at ha
    subst ha
    exact .destroyed hq
  | destroyed hq =>
    simp only [MpmcQueue.advance, Function.update_self, Function.update_idem, SizeT.ideal, id,
      c.mask_succ, Option.some.injEq] at ha
    subst ha
    exact .released hq
  | released hq => simp [MpmcQueue.advance] at ha

/-- A run of one thread's accesses stays inside any set of states closed under them. -/
theorem run_advance_closed {w : SizeT} {c : Capacity} {i : ι} {P : State ι α → Prop}
    (hP : ∀ u v b, P u → advance w c u i b = some v → P v) {u v : State ι α} {bs : List Bool}
    (hu : P u) (hr : (system w c).run u (List.map (Action.advance i) bs) = some v) : P v := by
  induction bs generalizing u with
  | nil =>
    cases hr
    exact hu
  | cons b bs ih =>
    rw [List.map_cons, System.run_cons] at hr
    obtain ⟨x, hx, hv⟩ := Option.bind_eq_some_iff.mp hr
    exact ih (hP u x b hu hx) hv

theorem State.set_idle {s : State ι α} {i : ι} (hz : s.threads i = .idle) (l : Local α) :
    (s.set i l).set i .idle = s := by
  unfold State.set
  simp only [Function.update_idem]
  rw [← hz, Function.update_eq_self]

theorem Quiescent.update {s : State ι α} (hz : Quiescent s) (i : ι) (l : Local α) (j : ι) :
    Function.update (Function.update s.threads i l) i .idle j = .idle := by
  rw [Function.update_idem]
  by_cases hj : j = i
  · subst hj
    rw [Function.update_self]
  · rw [Function.update_of_ne hj, hz j]

/-- A push that runs alone does what the bounded queue does. -/
theorem solo_push {c : Capacity} {s t : State ι α} {i : ι} {item : α} {r : Outcome α}
    (h : RingInv c s) (hz : Quiescent s) (hc : SoloCall .ideal c s i (.push item) r t) :
    fifoStep c.val (contents s) (.push item) = (r, contents t) ∧ Quiescent t ∧
      t.pushed.length ≤ s.pushed.length + 1 ∧ (r = .rejected item → t = s) := by
  obtain ⟨bs, u, hrun, hout, hret⟩ := hc
  have hstart : step .ideal c s (.callPush i item) = some (s.set i (.pushLoadPos item)) := by
    simp [step, hz i]
  rw [System.run_cons] at hrun
  change (step .ideal c s (.callPush i item)).bind _ = some u at hrun
  rw [hstart, Option.bind_some] at hrun
  have hq := h.quiescent_push hz
  have hle : s.sequence (c.slot s.enqueuePos) ≤ s.enqueuePos := by omega
  have hu := run_advance_closed (fun _ _ _ => SoloPush.advance hle) (SoloPush.start) hrun
  have hlen := h.contents_length
  have hpl := h.pushed_length
  have hpp := h.popped_length
  have hde := h.dequeue_le_enqueue
  cases hu <;> simp only [State.set, Function.update_self, Local.outcome, reduceCtorEq,
    Option.some.injEq] at hout
  case full hf =>
    subst hout
    simp only [step, State.set, Function.update_self, Local.Done, if_true, Option.some.injEq] at hret
    have ht : t = s := hret.symm.trans (State.set_idle (hz i) _)
    subst ht
    refine ⟨?_, hz, Nat.le_succ _, fun _ => rfl⟩
    simp only [fifoStep]
    rw [if_neg (by omega)]
  case published hf =>
    subst hout
    simp only [step, State.set, Function.update_self, Local.Done, if_true, Option.some.injEq] at hret
    subst hret
    refine ⟨?_, fun j => hz.update i _ j, by simp, by simp⟩
    simp only [fifoStep]
    rw [if_pos (by omega)]
    simp only [contents, Prod.mk.injEq, true_and]
    rw [List.drop_append_of_le_length (by omega), List.map_append]
    rfl

/-- A pop that runs alone does what the bounded queue does. -/
theorem solo_pop {c : Capacity} {s t : State ι α} {i : ι} {r : Outcome α}
    (h : RingInv c s) (hz : Quiescent s) (hc : SoloCall .ideal c s i .pop r t) :
    fifoStep c.val (contents s) .pop = (r, contents t) ∧ Quiescent t ∧
      t.pushed.length ≤ s.pushed.length + 1 ∧ (r = .empty → t = s) := by
  obtain ⟨bs, u, hrun, hout, hret⟩ := hc
  have hstart : step .ideal c s (.callPop i) = some (s.set i .popLoadPos) := by simp [step, hz i]
  rw [System.run_cons] at hrun
  change (step .ideal c s (.callPop i)).bind _ = some u at hrun
  rw [hstart, Option.bind_some] at hrun
  have hq := h.quiescent_pop hz
  have hle : s.sequence (c.slot s.dequeuePos) ≤ s.dequeuePos + 1 := by omega
  have hu := run_advance_closed (fun _ _ _ => SoloPop.advance hle) (SoloPop.start) hrun
  have hpl := h.pushed_length
  have hpp := h.popped_length
  cases hu <;> simp only [State.set, Function.update_self, Local.outcome, reduceCtorEq,
    Option.some.injEq] at hout
  case empty hf =>
    subst hout
    simp only [step, State.set, Function.update_self, Local.Done, if_true, Option.some.injEq] at hret
    have ht : t = s := hret.symm.trans (State.set_idle (hz i) _)
    subst ht
    have hnil : contents t = [] := by
      simp only [contents, List.map_eq_nil_iff, List.drop_eq_nil_iff]
      omega
    exact ⟨by rw [hnil]; rfl, hz, Nat.le_succ _, fun _ => rfl⟩
  case released hf =>
    subst hout
    simp only [step, State.set, Function.update_self, Local.Done, if_true, Option.some.injEq] at hret
    subst hret
    refine ⟨?_, fun j => hz.update i _ j, by simp, by simp⟩
    obtain ⟨p, hp, hst⟩ := (h.slot_holds hf).2.2.2.2.1 (le_refl _)
    have hlt := h.pushed_lt hp
    have hdrop : s.pushed.drop s.popped.length = p :: s.pushed.drop (s.popped.length + 1) := by
      rw [List.drop_eq_getElem_cons (by omega)]
      simp only [hpp]
      rw [(List.getElem?_eq_some_iff.mp hp).2]
    simp only [contents, List.length_append, List.length_singleton, hdrop, List.map_cons, fifoStep,
      hst]

theorem run_pushed_length {w : SizeT} {c : Capacity} {s t : State ι α} {as : List (Action ι α)}
    (h : (system w c).run s as = some t) : s.pushed.length ≤ t.pushed.length := by
  induction as generalizing s with
  | nil =>
    cases h
    exact le_refl _
  | cons a as ih =>
    rw [System.run_cons] at h
    obtain ⟨x, hx, ht⟩ := Option.bind_eq_some_iff.mp h
    exact (step_pushed_length hx).trans (ih ht)

theorem RingInv.run {c : Capacity} {s t : State ι α} {as : List (Action ι α)} (h : RingInv c s)
    (hr : (system .ideal c).run s as = some t) : RingInv c t := by
  induction as generalizing s with
  | nil =>
    cases hr
    exact h
  | cons a as ih =>
    rw [System.run_cons] at hr
    obtain ⟨x, hx, ht⟩ := Option.bind_eq_some_iff.mp hr
    exact ih (h.step hx) ht

theorem run_bits64 {c : Capacity} {s t : State ι α} {as : List (Action ι α)} (h : RingInv c s)
    (hb : t.pushed.length < 2^62) :
    (system .bits64 c).run s as = some t ↔ (system .ideal c).run s as = some t := by
  have key {u : State ι α} (hu : RingInv c u) (hub : u.pushed.length < 2^62) (a : Action ι α) :
      (system .bits64 c).step u a = (system .ideal c).step u a := step_bits64 hu hub a
  induction as generalizing s with
  | nil => exact Iff.rfl
  | cons a as ih =>
    rw [System.run_cons, System.run_cons]
    constructor
    · intro hr
      obtain ⟨x, hx, ht⟩ := Option.bind_eq_some_iff.mp hr
      have hsb : s.pushed.length < 2^62 :=
        (step_pushed_length hx).trans_lt ((run_pushed_length ht).trans_lt hb)
      rw [key h hsb a] at hx
      rw [hx, Option.bind_some]
      exact (ih (h.step hx)).mp ht
    · intro hr
      obtain ⟨x, hx, ht⟩ := Option.bind_eq_some_iff.mp hr
      have hsb : s.pushed.length < 2^62 :=
        (step_pushed_length hx).trans_lt ((run_pushed_length ht).trans_lt hb)
      rw [key h hsb a, hx, Option.bind_some]
      exact (ih (h.step hx)).mpr ht

/-- Returning changes nothing but the thread. -/
theorem ret_pushed {w : SizeT} {c : Capacity} {u t : State ι α} {i : ι}
    (h : step w c u (.ret i) = some t) : t.pushed = u.pushed := by
  simp only [step] at h
  split_ifs at h
  cases h
  rfl

theorem soloCall_bits64 {c : Capacity} {s t : State ι α} {i : ι} {op : Op α} {r : Outcome α}
    (h : RingInv c s) (hb : t.pushed.length < 2^62) :
    SoloCall .bits64 c s i op r t ↔ SoloCall .ideal c s i op r t := by
  constructor
  · rintro ⟨bs, u, hrun, hout, hret⟩
    exact ⟨bs, u, (run_bits64 h (by rwa [← ret_pushed hret])).mp hrun, hout, hret⟩
  · rintro ⟨bs, u, hrun, hout, hret⟩
    exact ⟨bs, u, (run_bits64 h (by rwa [← ret_pushed hret])).mpr hrun, hout, hret⟩

theorem SoloCall.ringInv {c : Capacity} {s t : State ι α} {i : ι} {op : Op α} {r : Outcome α}
    (h : RingInv c s) (hc : SoloCall .ideal c s i op r t) : RingInv c t := by
  obtain ⟨bs, u, hrun, -, hret⟩ := hc
  exact (h.run hrun).step hret

theorem SoloCalls.pushed_length {w : SizeT} {c : Capacity} {s t : State ι α}
    {ops : List (ι × Op α)} {rs : List (Outcome α)} (h : SoloCalls w c s ops rs t) :
    s.pushed.length ≤ t.pushed.length := by
  induction h with
  | nil s => exact le_refl _
  | cons hc _ ih =>
    obtain ⟨bs, u, hrun, -, hret⟩ := hc
    have := run_pushed_length hrun
    rw [← ret_pushed hret] at this
    exact this.trans ih

/-- A call that runs alone is a call of the bounded queue, and a failing one leaves no trace. -/
theorem solo_fifo {c : Capacity} {s t : State ι α} {i : ι} {op : Op α} {r : Outcome α}
    (h : RingInv c s) (hz : Quiescent s) (hc : SoloCall .ideal c s i op r t) :
    fifoStep c.val (contents s) op = (r, contents t) ∧ Quiescent t ∧
      t.pushed.length ≤ s.pushed.length + 1 ∧
      ((∃ item, r = .rejected item) ∨ r = .empty → t = s) := by
  cases op with
  | push item =>
    obtain ⟨h1, h2, h3, h4⟩ := solo_push h hz hc
    refine ⟨h1, h2, h3, ?_⟩
    have hr := congrArg Prod.fst h1
    simp only [fifoStep] at hr
    split_ifs at hr
    · simp [← hr]
    · exact fun _ => h4 hr.symm
  | pop =>
    obtain ⟨h1, h2, h3, h4⟩ := solo_pop h hz hc
    refine ⟨h1, h2, h3, ?_⟩
    rintro (⟨item, rfl⟩ | hr)
    · have hr := congrArg Prod.fst h1
      simp only [fifoStep] at hr
      split at hr <;> cases hr
    · exact h4 hr

/-- Calls that do not overlap are calls of the bounded queue. -/
theorem soloCalls_fifo {c : Capacity} {s t : State ι α} {ops : List (ι × Op α)}
    {rs : List (Outcome α)} (h : RingInv c s) (hz : Quiescent s)
    (hc : SoloCalls .bits64 c s ops rs t) (hb : t.pushed.length < 2^62) :
    fifoRun c.val (contents s) (ops.map Prod.snd) = (rs, contents t) ∧ Quiescent t := by
  induction hc with
  | nil s => exact ⟨rfl, hz⟩
  | @cons s t u i op ops r rs hcall hrest ih =>
    have hbt : t.pushed.length < 2^62 := hrest.pushed_length.trans_lt hb
    have hcall := (soloCall_bits64 h hbt).mp hcall
    obtain ⟨hstep, hzt, -, -⟩ := solo_fifo h hz hcall
    obtain ⟨hrun, hzu⟩ := ih (hcall.ringInv h) hzt hb
    refine ⟨?_, hzu⟩
    simp only [List.map_cons, fifoRun, hstep, hrun]

/-- Thread `i` alone can bring its operation to a result. -/
def Completes (c : Capacity) (i : ι) (u : State ι α) : Prop :=
  ∃ bs v r, (system .ideal c).run u (List.map (Action.advance i) bs) = some v ∧
    (v.threads i).outcome = some r

theorem Completes.of_advance {c : Capacity} {i : ι} {u v : State ι α} (hv : Completes c i v)
    (ha : advance .ideal c u i false = some v) : Completes c i u := by
  obtain ⟨bs, x, r, hrun, hr⟩ := hv
  refine ⟨false :: bs, x, r, ?_, hr⟩
  rw [List.map_cons, System.run_cons]
  change (advance .ideal c u i false).bind _ = _
  rw [ha, Option.bind_some, hrun]

theorem Completes.of_outcome {c : Capacity} {i : ι} {u : State ι α} {r : Outcome α}
    (h : (u.threads i).outcome = some r) : Completes c i u := ⟨[], u, r, rfl, h⟩

/-- A producer that owns its slot finishes without anybody's help. -/
theorem completes_pushing {c : Capacity} {u : State ι α} {i : ι} {k : Nat}
    (h : (u.threads i).Pushing k) : Completes c i u := by
  have hpub (u : State ι α) (hl : u.threads i = .pushPublish k) : Completes c i u := by
    refine .of_advance (.of_outcome (r := .accepted) ?_) (by simp only [advance, hl]; rfl)
    simp [Local.outcome]
  cases hl : u.threads i <;> rw [hl] at h <;> simp only [Local.Pushing] at h
  · subst h
    refine .of_advance (hpub _ ?_) (by simp only [advance, hl]; rfl)
    simp
  · subst h
    exact hpub u hl

/-- So does a consumer. -/
theorem completes_popping {c : Capacity} {u : State ι α} {i : ι} {k : Nat}
    (h : (u.threads i).Popping k) : Completes c i u := by
  have hrel (u : State ι α) (item : Option α) (hl : u.threads i = .popRelease k item) :
      Completes c i u := by
    refine .of_advance (.of_outcome (r := .taken item) ?_) (by simp only [advance, hl]; rfl)
    simp [Local.outcome]
  have hdes (u : State ι α) (item : Option α) (hl : u.threads i = .popDestroy k item) :
      Completes c i u := by
    refine .of_advance (hrel _ item ?_) (by simp only [advance, hl]; rfl)
    simp
  cases hl : u.threads i <;> rw [hl] at h <;> simp only [Local.Popping] at h
  case popMove pos =>
    subst h
    refine .of_advance (hdes _ (u.storage (c.slot pos)) ?_) (by simp only [advance, hl]; rfl)
    simp
  case popDestroy pos item =>
    subst h
    exact hdes u item hl
  case popRelease pos item =>
    subst h
    exact hrel u item hl

theorem completes_push {c : Capacity} {s : State ι α} (i : ι) (item : α)
    (hle : s.sequence (c.slot s.enqueuePos) ≤ s.enqueuePos) :
    Completes c i (s.set i (.pushLoadPos item)) := by
  have hload : advance .ideal c (s.set i (.pushLoadPos item)) i false =
      some (s.set i (.pushLoadSeq item s.enqueuePos)) := by simp [advance, State.set]
  refine .of_advance ?_ hload
  rcases hle.lt_or_eq with hlt | heq
  · have hfull : advance .ideal c (s.set i (.pushLoadSeq item s.enqueuePos)) i false =
        some (s.set i (.pushFailed item)) := by
      simp only [advance, State.set, Function.update_self, Function.update_idem, SizeT.ideal]
      rw [if_neg (by omega), if_pos (by omega)]
    exact .of_advance (.of_outcome (r := .rejected item) (by simp [Local.outcome])) hfull
  · have hseq : advance .ideal c (s.set i (.pushLoadSeq item s.enqueuePos)) i false =
        some (s.set i (.pushCas item s.enqueuePos)) := by
      simp [advance, State.set, SizeT.ideal, heq]
    refine .of_advance (.of_advance (completes_pushing (k := s.enqueuePos) ?_)
      (by simp only [advance, State.set, Function.update_self, and_self, if_true]; rfl)) hseq
    simp [Local.Pushing]

theorem completes_pop {c : Capacity} {s : State ι α} (i : ι)
    (hle : s.sequence (c.slot s.dequeuePos) ≤ s.dequeuePos + 1) :
    Completes c i (s.set i .popLoadPos) := by
  have hload : advance .ideal c (s.set i .popLoadPos) i false =
      some (s.set i (.popLoadSeq s.dequeuePos)) := by simp [advance, State.set]
  refine .of_advance ?_ hload
  rcases hle.lt_or_eq with hlt | heq
  · have hempty : advance .ideal c (s.set i (.popLoadSeq s.dequeuePos)) i false =
        some (s.set i .popFailed) := by
      simp only [advance, State.set, Function.update_self, Function.update_idem, SizeT.ideal, id]
      rw [if_neg (by omega), if_pos (by omega)]
    exact .of_advance (.of_outcome (r := .empty) (by simp [Local.outcome])) hempty
  · have hseq : advance .ideal c (s.set i (.popLoadSeq s.dequeuePos)) i false =
        some (s.set i (.popCas s.dequeuePos)) := by
      simp [advance, State.set, SizeT.ideal, heq]
    refine .of_advance (.of_advance (completes_popping (k := s.dequeuePos) ?_)
      (by simp only [advance, State.set, Function.update_self, and_self, if_true]; rfl)) hseq
    simp [Local.Popping]

/-- A call that runs alone can be completed. -/
theorem solo_exists {c : Capacity} {s : State ι α} (h : RingInv c s) (hz : Quiescent s) (i : ι)
    (op : Op α) : ∃ r t, SoloCall .ideal c s i op r t := by
  have hdone {l : Local α} {r : Outcome α} (hl : l.outcome = some r) : l.Done := by
    cases l <;> simp_all [Local.outcome, Local.Done]
  have hstart : ∃ u, step .ideal c s (op.call i) = some u ∧ Completes c i u := by
    cases op with
    | push item =>
      refine ⟨s.set i (.pushLoadPos item), by simp [step, Op.call, hz i], completes_push i item ?_⟩
      rcases h.quiescent_push hz with hq | hq <;> omega
    | pop =>
      refine ⟨s.set i .popLoadPos, by simp [step, Op.call, hz i], completes_pop i ?_⟩
      rcases h.quiescent_pop hz with hq | hq <;> omega
  obtain ⟨u, hu, bs, v, r, hrun, hr⟩ := hstart
  refine ⟨r, v.set i .idle, bs, v, ?_, hr, by simp [step, hdone hr]⟩
  rw [System.run_cons]
  change (step .ideal c s (op.call i)).bind _ = _
  rw [hu, Option.bind_some, hrun]

theorem soloCalls_exist {c : Capacity} {s : State ι α} (h : RingInv c s) (hz : Quiescent s)
    (ops : List (ι × Op α)) (hb : s.pushed.length + ops.length < 2^62) :
    ∃ rs t, SoloCalls .bits64 c s ops rs t ∧ t.pushed.length ≤ s.pushed.length + ops.length := by
  induction ops generalizing s with
  | nil => exact ⟨[], s, .nil s, le_refl _⟩
  | cons o ops ih =>
    obtain ⟨r, t, hc⟩ := solo_exists h hz o.1 o.2
    obtain ⟨-, hzt, hlen, -⟩ := solo_fifo h hz hc
    simp only [List.length_cons] at hb ⊢
    obtain ⟨rs, u, hrest, hu⟩ := ih (hc.ringInv h) hzt (by omega)
    exact ⟨r :: rs, u, .cons ((soloCall_bits64 h (by omega)).mpr hc) hrest, by omega⟩

/-- Only a thread's own step changes what it is about to do. -/
theorem step_thread {c : Capacity} {s t : State ι α} {a : Action ι α} {i : ι}
    (hs : step .ideal c s a = some t) (hn : t.threads i ≠ s.threads i) :
    (∃ item, t.threads i = .pushLoadPos item) ∨ t.threads i = .popLoadPos ∨
      t.threads i = .idle ∨ Moves c s i t := by
  have own {j : ι} {l : Local α} (ht : t.threads = Function.update s.threads j l) : i = j := by
    by_contra hij
    rw [ht, Function.update_of_ne hij] at hn
    exact hn rfl
  cases a with
  | callPush j item =>
    simp only [step] at hs
    split at hs <;> cases hs
    have := own rfl
    subst this
    exact .inl ⟨item, by simp⟩
  | callPop j =>
    simp only [step] at hs
    split at hs <;> cases hs
    have := own rfl
    subst this
    exact .inr (.inl (by simp))
  | advance j b =>
    have hm := moves_of_advance hs
    have : i = j := by cases hm <;> exact own rfl
    subst this
    exact .inr (.inr (.inr hm))
  | ret j =>
    simp only [step] at hs
    split_ifs at hs
    cases hs
    have := own rfl
    subst this
    exact .inr (.inr (.inl (by simp)))

/-- The step on which `emplace` decides to return false, and what it proves. -/
theorem push_fails_behind {c : Capacity} {s t : State ι α} {a : Action ι α} {i : ι} {item : α}
    (h : RingInv c s) (hs : step .ideal c s a = some t) (ht : t.threads i = .pushFailed item)
    (hn : s.threads i ≠ .pushFailed item) :
    (∃ pos, s.threads i = .pushLoadSeq item pos) ∧
      (c.val ≤ s.enqueuePos - s.dequeuePos ∨ Unfinished s) := by
  have hloc := h.locals i
  rcases step_thread hs (by rw [ht]; exact hn.symm) with ⟨v, hv⟩ | hv | hv | hm
  · simp [ht] at hv
  · simp [ht] at hv
  · simp [ht] at hv
  cases hm <;> simp only [State.set_threads, Function.update_self, reduceCtorEq,
    Local.pushFailed.injEq] at ht
  case pushFull v pos hl hq =>
    subst ht
    rw [hl] at hloc
    exact ⟨⟨pos, hl⟩, h.behind_push hloc hq⟩

theorem pop_fails_behind {c : Capacity} {s t : State ι α} {a : Action ι α} {i : ι}
    (h : RingInv c s) (hs : step .ideal c s a = some t) (ht : t.threads i = .popFailed)
    (hn : s.threads i ≠ .popFailed) :
    (∃ pos, s.threads i = .popLoadSeq pos) ∧
      (s.enqueuePos = s.dequeuePos ∨ Unpublished s) := by
  have hloc := h.locals i
  rcases step_thread hs (by rw [ht]; exact hn.symm) with ⟨v, hv⟩ | hv | hv | hm
  · simp [ht] at hv
  · simp [ht] at hv
  · simp [ht] at hv
  cases hm <;> simp only [State.set_threads, Function.update_self, reduceCtorEq] at ht
  case popEmpty pos hl hq =>
    rw [hl] at hloc
    exact ⟨⟨pos, hl⟩, h.behind_pop hloc hq⟩

/-- Failure is honest. `emplace` returns false only on reading a sequence number while the
queue was full or an operation was unfinished, `try_pop` returns nothing only while the queue
was empty or a push unpublished; so calls that do not overlap can always be made and are
exactly those of a queue of `Capacity` elements, failing ones changing nothing. -/
theorem failures_and_fifo (c : Capacity) (s : State ι α) (hr : (system .bits64 c).Reachable s)
    (hb : s.pushed.length < 2^62) :
    (∀ a t i item, step .bits64 c s a = some t → t.threads i = .pushFailed item →
      s.threads i ≠ .pushFailed item → (∃ pos, s.threads i = .pushLoadSeq item pos) ∧
        (c.val ≤ s.enqueuePos - s.dequeuePos ∨ Unfinished s)) ∧
    (∀ a t i, step .bits64 c s a = some t → t.threads i = .popFailed →
      s.threads i ≠ .popFailed → (∃ pos, s.threads i = .popLoadSeq pos) ∧
        (s.enqueuePos = s.dequeuePos ∨ Unpublished s)) ∧
    (Quiescent s →
      (∀ ops, s.pushed.length + ops.length < 2^62 → ∃ rs t, SoloCalls .bits64 c s ops rs t ∧
        t.pushed.length ≤ s.pushed.length + ops.length) ∧
      (∀ ops rs t, SoloCalls .bits64 c s ops rs t → t.pushed.length < 2^62 →
        fifoRun c.val (contents s) (ops.map Prod.snd) = (rs, contents t) ∧ Quiescent t) ∧
      (∀ i op r t, SoloCall .bits64 c s i op r t → t.pushed.length < 2^62 →
        ((∃ item, r = .rejected item) ∨ r = .empty) → t = s)) := by
  have h := ringInv_of_reachable_bits64 hr hb
  refine ⟨fun a t i item hs => ?_, fun a t i hs => ?_, fun hz => ⟨fun ops hlen => ?_,
    fun ops rs t hc ht => ?_, fun i op r t hc ht => ?_⟩⟩
  · rw [step_bits64 h hb] at hs
    exact push_fails_behind h hs
  · rw [step_bits64 h hb] at hs
    exact pop_fails_behind h hs
  · exact soloCalls_exist h hz ops hlen
  · exact soloCalls_fifo h hz hc ht
  · exact (solo_fifo h hz ((soloCall_bits64 h ht).mp hc)).2.2.2

theorem failures_and_fifo_initial :
    Quiescent (initial : State Nat Nat) ∧
      ∃ rs t, SoloCalls .bits64 capacityTwo (initial : State Nat Nat)
        [(0, .push 1), (1, .push 2), (0, .push 3), (2, .pop)] rs t ∧
        rs = [.accepted, .accepted, .rejected 3, .taken (some 1)] ∧ contents t = [2] := by
  have hz : Quiescent (initial : State Nat Nat) := fun _ => rfl
  have h := (failures_and_fifo capacityTwo (initial : State Nat Nat) (.init rfl) (by decide)).2.2 hz
  obtain ⟨rs, t, hc, hlen⟩ := h.1 [(0, .push 1), (1, .push 2), (0, .push 3), (2, .pop)] (by decide)
  have hb : t.pushed.length < 2^62 := hlen.trans_lt (by decide)
  have hq := (h.2.1 _ rs t hc hb).1
  have hspec : fifoRun capacityTwo.val (contents (initial : State Nat Nat))
      [.push 1, .push 2, .push 3, .pop] =
        ([.accepted, .accepted, .rejected 3, .taken (some 1)], [2]) := rfl
  have heq := hq.symm.trans hspec
  exact ⟨hz, rs, t, hc, congrArg Prod.fst heq, congrArg Prod.snd heq⟩

end Jellybean.Concurrency.MpmcQueue
