import Jellybean.Concurrency.SeqlockInvariant
import Jellybean.Framework.Linearizability

namespace Jellybean.Concurrency.Seqlock

variable {ι V : Type*} {n : Nat} {s t : State ι n V}

/-- An access of the callback of a write, with the value that it loads or stores. -/
inductive Traced (n : Nat) (V : Type*) where
  | loaded (w : Fin n) (v : V)
  | stored (w : Fin n) (v : V)
  deriving DecidableEq

inductive Op where
  | write
  | read
  deriving DecidableEq

inductive Res (n : Nat) (V : Type*) where
  | wrote (body : List (Traced n V))
  | got (copy : Fin n → Option V)
  | threw
  deriving DecidableEq

/-- The accesses happen to the data one after the other, with nothing in between. -/
inductive Replays (x : Fin n → V) : List (Traced n V) → (Fin n → V) → Prop
  | nil : Replays x [] x
  | loaded {body : List (Traced n V)} {y : Fin n → V} (h : Replays x body y) (w : Fin n) :
      Replays x (body ++ [.loaded w (y w)]) y
  | stored {body : List (Traced n V)} {y : Fin n → V} (h : Replays x body y) (w : Fin n) (v : V) :
      Replays x (body ++ [.stored w v]) (Function.update y w v)

/-- Data that every operation has to itself. -/
inductive RegisterApply : (Fin n → V) → Op → Res n V → (Fin n → V) → Prop
  | write {x y : Fin n → V} {body : List (Traced n V)} (h : Replays x body y) :
      RegisterApply x .write (.wrote body) y
  | read (x : Fin n → V) : RegisterApply x .read (.got fun w => some (x w)) x
  | threw (x : Fin n → V) : RegisterApply x .read .threw x

def register (data : Fin n → V) : SeqObject (Fin n → V) Op (Res n V) := ⟨data, RegisterApply⟩

/-- The data as the last finished write left it. -/
def State.current (s : State ι n V) : Fin n → V := (s.snapshot s.writes.length).getD s.start

def Local.status : Local n V → Status Op (Res n V)
  | .idle => .idle
  | .writeLoad | .writeCas _ | .writing _ => .called .write
  | .readLoad _ | .reading _ _ _ => .called .read

def State.toAtomic (s : State ι n V) : Atomic (Fin n → V) ι Op (Res n V) :=
  ⟨s.current, fun i => (s.threads i).status⟩

/-- A state together with what the callback of each write has done so far. -/
abbrev Trace (ι : Type*) (n : Nat) (V : Type*) := State ι n V × (ι → List (Traced n V))

/-- The operation that ends with a step, and how. -/
def ending (x : Trace ι n V) : Action ι n V → Option (ι × Op × Res n V)
  | .step i _ =>
    match x.1.threads i with
    | .writing _ => some (i, .write, .wrote (x.2 i))
    | .reading _ s copy =>
      if (∀ w, (copy w).isSome = true) ∧ x.1.seq = s then some (i, .read, .got copy) else none
    | _ => none
  | .throws i =>
    match x.1.threads i with
    | .reading _ _ _ => some (i, .read, .threw)
    | _ => none
  | _ => none

/-- The calls and returns that the threads see. -/
def event (x : Trace ι n V) : Action ι n V → List (CallEvent ι Op (Res n V))
  | .write i => [.call i .write]
  | .read i => [.call i .read]
  | a => ((ending x a).map fun e => CallEvent.ret e.1 e.2.2).toList

def done (x : Trace ι n V) (a : Action ι n V) : List (Op × Res n V) :=
  ((ending x a).map Prod.snd).toList

/-- No callback of a write throws, and fewer than `2^63` writes finish during one read. -/
def Bounded (s : State ι n V) (a : Action ι n V) : Prop :=
  throwsInWrite s a = false ∧ ∀ i, ∀ called ∈ (s.threads i).since, s.writes.length < called + 2^63

instance [Fintype ι] (s : State ι n V) (a : Action ι n V) : Decidable (Bounded s a) :=
  inferInstanceAs (Decidable (throwsInWrite s a = false ∧
    ∀ i, ∀ called ∈ (s.threads i).since, s.writes.length < called + 2^63))

theorem Free.current (h : Free s) : s.current = s.data := by
  rw [State.current, h.data]
  rfl

/-- A reader whose second load agrees with the first has copied the data that is current. -/
theorem Locked.copied (h : Locked s) {i : ι} {called : Nat} {copy : Fin n → Option V}
    (hi : s.threads i = .reading called s.seq copy) (hall : ∀ w, (copy w).isSome = true)
    (hfew : s.writes.length < called + 2^63) : copy = fun w => some (s.current w) := by
  have hl := h.threads i
  rw [hi] at hl
  obtain ⟨f, hcf, hfw, hx, hcopy⟩ := hl
  have heven : s.seq % 2 = 0 := by omega
  have hf := h.free_of_even heven
  have hseq := hf.seq
  have hfeq : f = s.writes.length := by omega
  funext w
  obtain ⟨v, hv⟩ := Option.isSome_iff_exists.mp (hall w)
  rw [hv, hf.current, hcopy hfeq heven w v hv]

/-! The write in progress. -/

/-- What a callback has done so far leads from the current data to the data in memory. -/
structure Recorded (x : Trace ι n V) : Prop where
  locked : Locked x.1
  bodies : ∀ i, (x.1.threads i).inWrite = true → Replays x.1.current (x.2 i) x.1.data

namespace Recorded

variable {x : Trace ι n V} {bodies : ι → List (Traced n V)}

theorem initial (data : Fin n → V) : Recorded (Seqlock.initial data, fun _ : ι => []) := by
  refine ⟨.initial data, ?_⟩
  intro i hi
  cases hi

/-- Steps of a thread at which no callback of a write begins or ends, and that store nothing. -/
theorem keep (h : Recorded x) {i : ι} (hi : (t.threads i).inWrite = false) (hl : Locked t)
    (hcurrent : t.current = x.1.current) (hdata : t.data = x.1.data)
    (ht : ∀ j, j ≠ i → t.threads j = x.1.threads j) (hb : ∀ j, j ≠ i → bodies j = x.2 j) :
    Recorded (t, bodies) := by
  refine ⟨hl, ?_⟩
  intro j hj
  have hne : j ≠ i := by
    intro heq
    rw [heq, hi] at hj
    cases hj
  dsimp only at hj ⊢
  rw [hcurrent, hdata, hb j hne]
  rw [ht j hne] at hj
  exact h.bodies j hj

end Recorded

variable [DecidableEq ι]

/-- The accesses of each thread to the data since its last access to `seq_`. -/
def traceBodies (x : Trace ι n V) : Action ι n V → ι → List (Traced n V)
  | .step i _ => Function.update x.2 i []
  | .storeWord i w v => Function.update x.2 i (x.2 i ++ [.stored w v])
  | .loadWord i w => Function.update x.2 i (x.2 i ++ [.loaded w (x.1.data w)])
  | .write _ | .read _ | .throws _ => x.2

/-- The seqlock over data that is there from the start. -/
def systemOn (ι : Type*) [DecidableEq ι] (n : Nat) (V : Type*) (data : Fin n → V) :
    System (State ι n V) (Action ι n V) where
  init s := s = initial data
  step := step

def traced (ι : Type*) [DecidableEq ι] (n : Nat) (V : Type*) (data : Fin n → V) :
    System (Trace ι n V) (Action ι n V) :=
  (systemOn ι n V data).withHistory (fun _ => []) traceBodies

namespace Recorded

variable {x : Trace ι n V} {bodies : ι → List (Traced n V)}

theorem set (h : Recorded x) {i : ι} {l : Local n V} {rs : List (Return n V)}
    (hl : Locked { x.1 with threads := Function.update x.1.threads i l, returns := rs })
    (hw : l.inWrite = false) (hb : ∀ j, j ≠ i → bodies j = x.2 j) :
    Recorded ({ x.1 with threads := Function.update x.1.threads i l, returns := rs }, bodies) := by
  apply h.keep (i := i) ?_ hl rfl rfl (fun j hj => Function.update_of_ne hj ..) hb
  dsimp only
  rw [Function.update_self]
  exact hw

/-- The next access of the only callback. -/
theorem access (h : Recorded x) {i : ι} (hi : (x.1.threads i).inWrite = true) (hl : Locked t)
    (hcurrent : t.current = x.1.current) (ht : t.threads = x.1.threads) {b : Traced n V}
    (hb : Replays x.1.current (x.2 i ++ [b]) t.data) :
    Recorded (t, Function.update x.2 i (x.2 i ++ [b])) := by
  refine ⟨hl, ?_⟩
  intro j hj
  dsimp only at hj ⊢
  rw [ht] at hj
  obtain rfl : j = i := h.locked.exclusive hj hi
  rw [hcurrent, Function.update_self]
  exact hb

/-- The callback has done nothing yet. -/
theorem acquire (h : Recorded x) {i : ι} (hi : x.1.threads i = .writeCas x.1.seq) :
    Recorded ({ x.1 with
      seq := (x.1.seq + 1) % 2^64
      threads := Function.update x.1.threads i (.writing x.1.seq) },
      Function.update x.2 i []) := by
  have hfree : Free x.1 := by
    have hlocal := h.locked.threads i
    rw [hi] at hlocal
    exact h.locked.free_of_even hlocal
  have hl := h.locked.acquire hi
  refine ⟨hl, ?_⟩
  intro j hj
  obtain rfl : j = i := hl.exclusive hj (by simp [Local.inWrite])
  simp only [Function.update_self]
  change Replays x.1.current [] x.1.data
  rw [hfree.current]
  exact .nil

theorem step_access (h : Recorded x) {i : ι} {spurious : Bool}
    (ht : Seqlock.access x.1 i spurious = some t) : Recorded (t, Function.update x.2 i []) := by
  have hl := h.locked.access ht
  have hb : ∀ j, j ≠ i → Function.update x.2 i [] j = x.2 j := fun j hj =>
    Function.update_of_ne hj ..
  unfold Seqlock.access at ht
  cases hi : x.1.threads i with
  | idle =>
    rw [hi] at ht
    cases ht
  | writeLoad | readLoad =>
    rw [hi] at ht
    dsimp only at ht
    split_ifs at ht
    · cases ht
      exact h.keep (i := i) (by rw [hi]; rfl) hl rfl rfl (fun _ _ => rfl) hb
    · cases ht
      exact h.set hl rfl hb
  | writeCas y =>
    rw [hi] at ht
    dsimp only at ht
    split_ifs at ht with hcas
    · obtain ⟨rfl, -⟩ := hcas
      cases ht
      exact h.acquire hi
    · cases ht
      exact h.set hl rfl hb
  | writing y =>
    have hbusy := h.locked.busy_of_writing (i := i) (by rw [hi]; rfl)
    rw [hi] at ht
    cases ht
    refine ⟨hl, ?_⟩
    intro j hj
    dsimp only at hj
    rw [Function.update_apply] at hj
    split_ifs at hj with hne
    · cases hj
    · exact absurd (hbusy.only j hj) hne
  | reading called y copy =>
    rw [hi] at ht
    dsimp only at ht
    split_ifs at ht
    all_goals
      cases ht
      exact h.set hl rfl hb

theorem step (h : Recorded x) {a : Action ι n V} (hc : throwsInWrite x.1 a = false)
    (ht : Seqlock.step x.1 a = some t) : Recorded (t, traceBodies x a) := by
  have hl := h.locked.step hc ht
  cases a with
  | step i spurious => exact h.step_access ht
  | write i | read i =>
    unfold Seqlock.step at ht
    dsimp only at ht
    split at ht
    · cases ht
      exact h.set hl rfl fun _ _ => rfl
    · cases ht
  | storeWord i w v =>
    unfold Seqlock.step at ht
    dsimp only at ht
    split at ht
    · rename_i y hi
      cases ht
      have hw : (x.1.threads i).inWrite = true := by
        rw [hi]
        rfl
      exact h.access hw hl rfl rfl (.stored (h.bodies i hw) w v)
    · cases ht
  | loadWord i w =>
    unfold Seqlock.step at ht
    dsimp only at ht
    split at ht
    · cases ht
      exact h.set hl rfl fun j hj => Function.update_of_ne hj ..
    · rename_i y hi
      cases ht
      have hw : (x.1.threads i).inWrite = true := by
        rw [hi]
        rfl
      exact h.access hw hl rfl rfl (.loaded (h.bodies i hw) w)
    · cases ht
  | throws i =>
    unfold Seqlock.step at ht
    dsimp only at ht
    split at ht
    · rename_i y hi
      rw [throwsInWrite, hi] at hc
      cases hc
    · cases ht
      exact h.set hl rfl fun _ _ => rfl
    · cases ht

end Recorded

/-! Every step as the register sees it. -/

section Steps

variable {data : Fin n → V} {i : ι} {l : Local n V} {op : Op} {r : Res n V}

theorem status_update (s : State ι n V) (i : ι) (l : Local n V) :
    (fun j => (Function.update s.threads i l j).status) =
      Function.update (fun j => (s.threads j).status) i l.status :=
  Function.comp_update Local.status s.threads i l

/-- Nothing that the register could see. -/
theorem steps_silent (hcurrent : t.current = s.current)
    (ht : t.threads = Function.update s.threads i l) (hl : l.status = (s.threads i).status) :
    AtomicSteps (register data) s.toAtomic [] [] t.toAtomic := by
  have hsame : t.toAtomic = s.toAtomic := by
    rw [State.toAtomic, State.toAtomic, hcurrent, ht, status_update, hl, Function.update_eq_self]
  rw [hsame]
  exact .refl _

theorem steps_call (hi : s.threads i = .idle) (hl : l.status = .called op)
    (hcurrent : t.current = s.current) (ht : t.threads = Function.update s.threads i l) :
    AtomicSteps (register data) s.toAtomic [.call i op] [] t.toAtomic := by
  have hcall : AtomicSteps (register data) s.toAtomic [.call i op] []
      ⟨s.current, Function.update s.toAtomic.status i (.called op)⟩ :=
    (AtomicStep.call (x := s.toAtomic) (congrArg Local.status hi)).steps
  rwa [← hl, ← hcurrent, State.toAtomic, ← status_update, ← ht] at hcall

theorem steps_ret (hi : (s.threads i).status = .called op)
    (ht : t.threads = Function.update s.threads i .idle)
    (ha : RegisterApply s.current op r t.current) :
    AtomicSteps (register data) s.toAtomic [.ret i r] [(op, r)] t.toAtomic := by
  have hret : AtomicSteps (register data) s.toAtomic [.ret i r] [(op, r)]
      ⟨t.current, Function.update s.toAtomic.status i (Local.idle (n := n) (V := V)).status⟩ :=
    AtomicSteps.perform_ret (x := s.toAtomic) hi ha
  rwa [State.toAtomic, ← status_update, ← ht] at hret

/-- A write takes effect at its last store, a read at its second load or where it gives up. -/
theorem access_steps {x : Trace ι n V} (h : Recorded x) {spurious : Bool}
    (hc : Bounded x.1 (.step i spurious)) (ht : access x.1 i spurious = some t) :
    AtomicSteps (register data) x.1.toAtomic (event x (.step i spurious))
      (done x (.step i spurious)) t.toAtomic := by
  have hl := h.locked.access ht
  unfold access at ht
  cases hi : x.1.threads i with
  | idle =>
    rw [hi] at ht
    cases ht
  | writeLoad | readLoad =>
    simp only [event, done, ending, hi]
    rw [hi] at ht
    dsimp only at ht
    split_ifs at ht
    · cases ht
      exact .refl _
    · cases ht
      exact steps_silent rfl rfl (congrArg Local.status hi).symm
  | writeCas y =>
    simp only [event, done, ending, hi]
    rw [hi] at ht
    dsimp only at ht
    split_ifs at ht
    · cases ht
      exact steps_silent rfl rfl (congrArg Local.status hi).symm
    · cases ht
      exact steps_silent rfl rfl (congrArg Local.status hi).symm
  | writing y =>
    simp only [event, done, ending, hi]
    have hbody := h.bodies i (by rw [hi]; rfl)
    have hown := (h.locked.busy_of_writing (i := i) (by rw [hi]; rfl)).own
    rw [hi] at hown ht
    have hy := Local.writing.inj hown
    cases ht
    have hfree := hl.free_of_even (by dsimp only; omega)
    apply steps_ret (congrArg Local.status hi) rfl
    rw [hfree.current]
    exact .write hbody
  | reading called y copy =>
    simp only [event, done, ending, hi]
    rw [hi] at ht
    dsimp only at ht
    split_ifs at ht with hall hy
    · cases ht
      subst hy
      have hcopy := h.locked.copied hi hall (hc.2 i called (by rw [hi]; rfl))
      rw [if_pos ⟨hall, rfl⟩, hcopy]
      exact steps_ret (congrArg Local.status hi) rfl (.read _)
    · cases ht
      rw [if_neg fun hp => hy hp.2]
      exact steps_silent rfl rfl (congrArg Local.status hi).symm

theorem step_steps {x : Trace ι n V} (h : Recorded x) {a : Action ι n V} (hc : Bounded x.1 a)
    (ht : step x.1 a = some t) :
    AtomicSteps (register data) x.1.toAtomic (event x a) (done x a) t.toAtomic := by
  cases a with
  | step i spurious => exact access_steps h hc ht
  | write i | read i =>
    unfold step at ht
    dsimp only at ht
    split at ht
    · rename_i hi
      cases ht
      exact steps_call hi rfl rfl rfl
    · cases ht
  | storeWord i w v =>
    unfold step at ht
    dsimp only at ht
    split at ht
    · cases ht
      exact .refl _
    · cases ht
  | loadWord i w =>
    unfold step at ht
    dsimp only at ht
    split at ht
    · rename_i called y copy hi
      cases ht
      exact steps_silent rfl rfl (congrArg Local.status hi).symm
    · cases ht
      exact .refl _
    · cases ht
  | throws i =>
    unfold step at ht
    dsimp only at ht
    split at ht
    · rename_i y hi
      have hthrow := hc.1
      rw [throwsInWrite, hi] at hthrow
      cases hthrow
    · rename_i called y copy hi
      cases ht
      simp only [event, done, ending, hi]
      exact steps_ret (congrArg Local.status hi) rfl (.threw _)
    · cases ht

end Steps

theorem recorded_of_init {data : Fin n → V} (x : Trace ι n V) (hx : (traced ι n V data).init x) :
    Recorded x := by
  obtain ⟨s, bodies⟩ := x
  obtain ⟨rfl, rfl⟩ : s = initial data ∧ bodies = fun _ => [] := hx
  exact .initial data

theorem recorded_of_step {data : Fin n → V} (x : Trace ι n V) (a : Action ι n V)
    (y : Trace ι n V) (h : Recorded x) (hc : Bounded x.1 a)
    (hy : (traced ι n V data).step x a = some y) : Recorded y := by
  obtain ⟨t, ht, rfl⟩ := Option.map_eq_some_iff.mp hy
  exact h.step hc.1 ht

theorem simulates_register (data : Fin n → V) :
    (traced ι n V data).Simulates (fun x a => Bounded x.1 a) Recorded event done (register data)
      fun x => x.1.toAtomic where
  init := by
    intro x hx
    obtain ⟨hinit, -⟩ := hx
    rw [show x.1 = initial data from hinit]
    rfl
  step := by
    intro x a y h hc hy
    obtain ⟨t, ht, rfl⟩ := Option.map_eq_some_iff.mp hy
    exact step_steps h hc ht

/-- Every run of the seqlock in which no callback of a write throws and no read is overtaken by
`2^63` writes is one of data that each operation has to itself: the callback of a write makes its
loads and stores in one go on what the last write left, a read returns a copy of that. -/
theorem seqlock_linearizable (data : Fin n → V) (as : List (Action ι n V)) (s : State ι n V)
    (hc : (systemOn ι n V data).Complies Bounded (initial data) as)
    (hr : (systemOn ι n V data).run (initial data) as = some s) :
    AtomicRun (register data) ((traced ι n V data).events event (initial data, fun _ => []) as)
        ((traced ι n V data).performed done (initial data, fun _ => []) as) s.toAtomic ∧
      SeqRun (register data) ((traced ι n V data).performed done (initial data, fun _ => []) as)
        s.current := by
  have hinit : (traced ι n V data).init (initial data, fun _ => []) := ⟨rfl, rfl⟩
  obtain ⟨bodies, hrun⟩ : ∃ bodies, (traced ι n V data).run (initial data, fun _ => []) as =
      some (s, bodies) := System.run_withHistory hr
  have hatomic := (simulates_register data).atomicRun recorded_of_init recorded_of_step hinit
    (System.complies_withHistory hc) hrun
  exact ⟨hatomic, hatomic.seqRun⟩

/-- Two threads increment the word; `false` comes second and has to wait. -/
def increments : List (Action Bool 1 Nat) :=
  [.write true, .write false, .step true false, .step false false, .step true false,
    .loadWord true (.last 0), .step false false, .step false false, .storeWord true (.last 0) 1,
    .step true false, .step false false, .step false false, .loadWord false (.last 0),
    .storeWord false (.last 0) 2, .step false false]

theorem seqlock_linearizable_increments :
    ∃ s, (systemOn Bool 1 Nat fun _ => 0).run (initial fun _ => 0) increments = some s ∧
      s.current 0 = 2 ∧
      SeqRun (register fun _ => 0)
        [(.write, .wrote [.loaded 0 0, .stored 0 1]), (.write, .wrote [.loaded 0 1, .stored 0 2])]
        s.current := by
  have hrun : ((systemOn Bool 1 Nat fun _ => 0).run (initial fun _ => 0) increments).map
      (fun s => s.current 0) = some 2 := by
    decide +kernel
  have hdone : (traced Bool 1 Nat fun _ => 0).performed done (initial fun _ => 0, fun _ => [])
      increments = [(.write, .wrote [.loaded 0 0, .stored 0 1]),
        (.write, .wrote [.loaded 0 1, .stored 0 2])] := by
    decide +kernel
  obtain ⟨s, hs, hcurrent⟩ := Option.map_eq_some_iff.mp hrun
  obtain ⟨-, hseq⟩ := seqlock_linearizable (fun _ => 0) increments s (by decide +kernel) hs
  rw [hdone] at hseq
  exact ⟨s, hs, hcurrent, hseq⟩

end Jellybean.Concurrency.Seqlock
