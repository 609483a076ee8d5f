import Jellybean.Framework.System
import Mathlib.Tactic

namespace Jellybean

/-- A sequential object: which results an operation may have and what it leaves behind. -/
structure SeqObject (σ Op Res : Type*) where
  init : σ
  apply : σ → Op → Res → σ → Prop

/-- A thread is outside the object, has called, or has taken effect and will return `r`. -/
inductive Status (Op Res : Type*) where
  | idle
  | called (op : Op)
  | performed (r : Res)

inductive CallEvent (ι Op Res : Type*) where
  | call (i : ι) (op : Op)
  | ret (i : ι) (r : Res)

/-- The atomic version of an object: an operation takes effect in one internal step
somewhere between its call and its return. -/
structure Atomic (σ ι Op Res : Type*) where
  object : σ
  status : ι → Status Op Res

variable {σ ι Op Res : Type*} [DecidableEq ι]

inductive AtomicStep (S : SeqObject σ Op Res) :
    Atomic σ ι Op Res → Option (CallEvent ι Op Res) → Option (Op × Res) → Atomic σ ι Op Res → Prop
  | call {x : Atomic σ ι Op Res} {i : ι} {op : Op} (h : x.status i = .idle) :
      AtomicStep S x (some (.call i op)) none ⟨x.object, Function.update x.status i (.called op)⟩
  | perform {x : Atomic σ ι Op Res} {i : ι} {op : Op} {r : Res} {o : σ}
      (h : x.status i = .called op) (ha : S.apply x.object op r o) :
      AtomicStep S x none (some (op, r)) ⟨o, Function.update x.status i (.performed r)⟩
  | ret {x : Atomic σ ι Op Res} {i : ι} {r : Res} (h : x.status i = .performed r) :
      AtomicStep S x (some (.ret i r)) none ⟨x.object, Function.update x.status i .idle⟩

/-- `AtomicRun S h L x`: the atomic object can show the history `h` of calls and returns,
its operations taking effect in the order `L`, and be in state `x` afterwards. -/
inductive AtomicRun (S : SeqObject σ Op Res) :
    List (CallEvent ι Op Res) → List (Op × Res) → Atomic σ ι Op Res → Prop
  | init : AtomicRun S [] [] ⟨S.init, fun _ => .idle⟩
  | step {h : List (CallEvent ι Op Res)} {L : List (Op × Res)} {x y : Atomic σ ι Op Res}
      {e : Option (CallEvent ι Op Res)} {p : Option (Op × Res)} :
      AtomicRun S h L x → AtomicStep S x e p y → AtomicRun S (h ++ e.toList) (L ++ p.toList) y

/-- A history is linearizable if the atomic object can show it. -/
def Linearizable (S : SeqObject σ Op Res) (h : List (CallEvent ι Op Res)) : Prop :=
  ∃ L x, AtomicRun S h L x

/-- The operations in the order they took effect are a run of the sequential object. -/
inductive SeqRun (S : SeqObject σ Op Res) : List (Op × Res) → σ → Prop
  | init : SeqRun S [] S.init
  | step {L : List (Op × Res)} {o o' : σ} {op : Op} {r : Res} :
      SeqRun S L o → S.apply o op r o' → SeqRun S (L ++ [(op, r)]) o'

theorem AtomicRun.seqRun {S : SeqObject σ Op Res} {h : List (CallEvent ι Op Res)}
    {L : List (Op × Res)} {x : Atomic σ ι Op Res} (hr : AtomicRun S h L x) :
    SeqRun S L x.object := by
  induction hr with
  | init => exact .init
  | step _ hs ih =>
    cases hs with
    | call _ => simpa using ih
    | perform _ ha => exact .step ih ha
    | ret _ => simpa using ih

/-! Accounting. A weight on the status of a thread, zero on idle ones, is paid by calls and
paid back by returns; in between it moves with the operations that take effect. -/

section Weights

variable {M : Type*} [AddCancelCommMonoid M]

def callWeight (g : Status Op Res → M) (h : List (CallEvent ι Op Res)) : M :=
  (h.map fun | .call _ op => g (.called op) | .ret _ _ => 0).sum

def retWeight (g : Status Op Res → M) (h : List (CallEvent ι Op Res)) : M :=
  (h.map fun | .call _ _ => 0 | .ret _ r => g (.performed r)).sum

theorem sum_update_add {β : Type*} (g : β → M) (f : ι → β) {T : Finset ι} {i : ι} (hi : i ∈ T)
    (v : β) : ∑ j ∈ T, g (Function.update f i v j) + g (f i) = ∑ j ∈ T, g (f j) + g v := by
  have hrest : ∑ j ∈ T.erase i, g (Function.update f i v j) = ∑ j ∈ T.erase i, g (f j) := by
    refine Finset.sum_congr rfl fun j hj => ?_
    rw [Function.update_of_ne (Finset.ne_of_mem_erase hj)]
  rw [← Finset.add_sum_erase T _ hi, ← Finset.add_sum_erase T (fun j => g (f j)) hi, hrest,
    Function.update_self]
  abel

/-- One step changes the status of one thread and the sums by the same amount. -/
theorem AtomicStep.weight {S : SeqObject σ Op Res} {x y : Atomic σ ι Op Res}
    {e : Option (CallEvent ι Op Res)} {p : Option (Op × Res)} (hs : AtomicStep S x e p y)
    (g : Status Op Res → M) (hg : g .idle = 0) :
    ∃ i v, y.status = Function.update x.status i v ∧
      callWeight g e.toList + (p.toList.map fun q => g (.performed q.2)).sum + g (x.status i) =
        retWeight g e.toList + (p.toList.map fun q => g (.called q.1)).sum + g v := by
  cases hs with
  | @call i op hi => exact ⟨i, _, rfl, by simp [callWeight, retWeight, hi, hg]⟩
  | @perform i op r o hi ha => exact ⟨i, _, rfl, by simp [callWeight, retWeight, hi, add_comm]⟩
  | @ret i r hi => exact ⟨i, _, rfl, by simp [callWeight, retWeight, hi, hg]⟩

theorem AtomicRun.weight {S : SeqObject σ Op Res} {h : List (CallEvent ι Op Res)}
    {L : List (Op × Res)} {x : Atomic σ ι Op Res} (hr : AtomicRun S h L x)
    (g : Status Op Res → M) (hg : g .idle = 0) {T : Finset ι}
    (hT : ∀ i, i ∉ T → x.status i = .idle) :
    callWeight g h + (L.map fun q => g (.performed q.2)).sum =
      retWeight g h + (L.map fun q => g (.called q.1)).sum + ∑ i ∈ T, g (x.status i) := by
  induction hr generalizing T with
  | init => simp [callWeight, retWeight, hg]
  | @step h L x y e p _ hs ih =>
    obtain ⟨i, v, hy, hw⟩ := hs.weight g hg
    have hih := @ih (insert i T) fun j hj => by
      rw [← hT j fun hm => hj (Finset.mem_insert_of_mem hm), hy, Function.update_of_ne]
      rintro rfl
      exact hj (Finset.mem_insert_self _ _)
    have hup := sum_update_add g x.status (Finset.mem_insert_self i T) v
    have hsame : ∑ j ∈ insert i T, g (y.status j) = ∑ j ∈ T, g (y.status j) :=
      Finset.sum_insert_of_eq_zero_if_notMem fun hn => by rw [hT i hn, hg]
    rw [← hy, hsame] at hup
    have hc : callWeight g (h ++ e.toList) = callWeight g h + callWeight g e.toList := by
      simp [callWeight]
    have hd : retWeight g (h ++ e.toList) = retWeight g h + retWeight g e.toList := by
      simp [retWeight]
    rw [List.map_append, List.sum_append, List.map_append, List.sum_append, hc, hd]
    refine add_right_cancel (b := g (x.status i)) ?_
    calc _ = (callWeight g h + (L.map fun q => g (.performed q.2)).sum) +
          (callWeight g e.toList + (p.toList.map fun q => g (.performed q.2)).sum +
            g (x.status i)) := by abel
      _ = (retWeight g h + (L.map fun q => g (.called q.1)).sum +
            (retWeight g e.toList + (p.toList.map fun q => g (.called q.1)).sum)) +
          (∑ j ∈ insert i T, g (x.status j) + g v) := by rw [hih, hw]; abel
      _ = _ := by rw [← hup]; abel

end Weights

namespace System

variable {τ α : Type*}

/-- The calls and returns shown by a schedule; `ev` names those of a single step. -/
def history (M : System τ α) (ev : τ → α → Option (CallEvent ι Op Res)) :
    τ → List α → List (CallEvent ι Op Res)
  | _, [] => []
  | s, a :: as =>
    (ev s a).toList ++ ((M.step s a).map fun t => M.history ev t as).getD []

/-- Refinement mapping: `f` sends initial states to the initial state of the atomic object and
every step to one step of it with the same event, or to no step if there is no event. -/
structure Refines (M : System τ α) (Inv : τ → Prop) (ev : τ → α → Option (CallEvent ι Op Res))
    (S : SeqObject σ Op Res) (f : τ → Atomic σ ι Op Res) : Prop where
  init : ∀ s, M.init s → f s = ⟨S.init, fun _ => .idle⟩
  step : ∀ s a t, Inv s → M.step s a = some t →
    (ev s a = none ∧ f t = f s) ∨ ∃ p, AtomicStep S (f s) (ev s a) p (f t)

omit [DecidableEq ι] in
theorem history_cons (M : System τ α) (ev : τ → α → Option (CallEvent ι Op Res)) {s t : τ}
    {a : α} (as : List α) (h : M.step s a = some t) :
    M.history ev s (a :: as) = (ev s a).toList ++ M.history ev t as := by
  simp [history, h]

/-- The history of every run of a refining system is linearizable, and the linearization
ends in the state the mapping gives. -/
theorem Refines.atomicRun {M : System τ α} {Inv : τ → Prop}
    {ev : τ → α → Option (CallEvent ι Op Res)} {S : SeqObject σ Op Res}
    {f : τ → Atomic σ ι Op Res} (hf : M.Refines Inv ev S f)
    (hi : ∀ s, M.init s → Inv s) (hs : ∀ s a t, Inv s → M.step s a = some t → Inv t)
    {s t : τ} {as : List α} (h0 : M.init s) (hr : M.run s as = some t) :
    ∃ L, AtomicRun S (M.history ev s as) L (f t) := by
  have key (as : List α) (s t : τ) (h : List (CallEvent ι Op Res)) (L : List (Op × Res))
      (hinv : Inv s) (hx : AtomicRun S h L (f s)) (hr : M.run s as = some t) :
      ∃ L', AtomicRun S (h ++ M.history ev s as) L' (f t) := by
    induction as generalizing s h L with
    | nil =>
      cases hr
      exact ⟨L, by simpa [history] using hx⟩
    | cons a as ih =>
      rw [run_cons] at hr
      obtain ⟨u, hu, ht⟩ := Option.bind_eq_some_iff.mp hr
      rw [M.history_cons ev as hu]
      rcases hf.step s a u hinv hu with ⟨he, hfu⟩ | ⟨p, hp⟩
      · rw [he]
        exact ih u h L (hs s a u hinv hu) (hfu ▸ hx) ht
      · rw [← List.append_assoc]
        exact ih u _ _ (hs s a u hinv hu) (.step hx hp) ht
  have hinit := hf.init s h0
  exact key as s t [] [] (hi s h0) (hinit ▸ .init) hr

end System

/-! One step of a system may stand for several of the atomic object. -/

inductive AtomicSteps (S : SeqObject σ Op Res) : Atomic σ ι Op Res →
    List (CallEvent ι Op Res) → List (Op × Res) → Atomic σ ι Op Res → Prop
  | refl (x : Atomic σ ι Op Res) : AtomicSteps S x [] [] x
  | step {h : List (CallEvent ι Op Res)} {L : List (Op × Res)} {x y z : Atomic σ ι Op Res}
      {e : Option (CallEvent ι Op Res)} {p : Option (Op × Res)} :
      AtomicSteps S x h L y → AtomicStep S y e p z →
        AtomicSteps S x (h ++ e.toList) (L ++ p.toList) z

theorem AtomicStep.steps {S : SeqObject σ Op Res} {x y : Atomic σ ι Op Res}
    {e : Option (CallEvent ι Op Res)} {p : Option (Op × Res)} (hs : AtomicStep S x e p y) :
    AtomicSteps S x e.toList p.toList y :=
  .step (.refl x) hs

/-- An operation that takes effect and returns in one step. -/
theorem AtomicSteps.perform_ret {S : SeqObject σ Op Res} {x : Atomic σ ι Op Res} {i : ι} {op : Op}
    {r : Res} {o : σ} (h : x.status i = .called op) (ha : S.apply x.object op r o) :
    AtomicSteps S x [.ret i r] [(op, r)] ⟨o, Function.update x.status i .idle⟩ := by
  have hperform := (AtomicStep.perform h ha).steps
  have hret := hperform.step (.ret (Function.update_self i _ _))
  rwa [Function.update_idem] at hret

theorem AtomicRun.steps {S : SeqObject σ Op Res} {h h' : List (CallEvent ι Op Res)}
    {L L' : List (Op × Res)} {x y : Atomic σ ι Op Res} (hr : AtomicRun S h L x)
    (hs : AtomicSteps S x h' L' y) : AtomicRun S (h ++ h') (L ++ L') y := by
  induction hs with
  | refl =>
    rw [List.append_nil, List.append_nil]
    exact hr
  | step _ hlast ih =>
    rw [← List.append_assoc, ← List.append_assoc]
    exact (ih hr).step hlast

namespace System

variable {τ α : Type*}

/-- The calls and returns shown by a schedule; `ev` lists those of a single step. -/
def events (M : System τ α) (ev : τ → α → List (CallEvent ι Op Res)) :
    τ → List α → List (CallEvent ι Op Res)
  | _, [] => []
  | s, a :: as => ev s a ++ ((M.step s a).map fun t => M.events ev t as).getD []

/-- A refinement mapping that answers a step with any number of steps, whose operations `done`
lists; only steps that satisfy `C` need an answer. -/
structure Simulates (M : System τ α) (C : τ → α → Prop) (Inv : τ → Prop)
    (ev : τ → α → List (CallEvent ι Op Res)) (done : τ → α → List (Op × Res))
    (S : SeqObject σ Op Res) (f : τ → Atomic σ ι Op Res) : Prop where
  init : ∀ s, M.init s → f s = ⟨S.init, fun _ => .idle⟩
  step : ∀ s a t, Inv s → C s a → M.step s a = some t →
    AtomicSteps S (f s) (ev s a) (done s a) (f t)

/-- The operations of a schedule in the order in which they take effect. -/
def performed (M : System τ α) (done : τ → α → List (Op × Res)) : τ → List α → List (Op × Res)
  | _, [] => []
  | s, a :: as => done s a ++ ((M.step s a).map fun t => M.performed done t as).getD []

theorem Simulates.atomicRun {M : System τ α} {C : τ → α → Prop} {Inv : τ → Prop}
    {ev : τ → α → List (CallEvent ι Op Res)} {done : τ → α → List (Op × Res)}
    {S : SeqObject σ Op Res} {f : τ → Atomic σ ι Op Res} (hf : M.Simulates C Inv ev done S f)
    (hi : ∀ s, M.init s → Inv s) (hs : ∀ s a t, Inv s → C s a → M.step s a = some t → Inv t)
    {s t : τ} {as : List α} (h0 : M.init s) (hc : M.Complies C s as) (hr : M.run s as = some t) :
    AtomicRun S (M.events ev s as) (M.performed done s as) (f t) := by
  have key (as : List α) (s : τ) (h : List (CallEvent ι Op Res)) (L : List (Op × Res))
      (hinv : Inv s) (hx : AtomicRun S h L (f s)) (hc : M.Complies C s as)
      (hr : M.run s as = some t) :
      AtomicRun S (h ++ M.events ev s as) (L ++ M.performed done s as) (f t) := by
    induction as generalizing s h L with
    | nil =>
      cases hr
      rw [events, performed, List.append_nil, List.append_nil]
      exact hx
    | cons a as ih =>
      rw [run_cons] at hr
      obtain ⟨u, hu, ht⟩ := Option.bind_eq_some_iff.mp hr
      have hnext := ih u _ _ (hs s a u hinv hc.1 hu) (hx.steps (hf.step s a u hinv hc.1 hu))
        (hc.2 u hu) ht
      rw [events, performed, hu, ← List.append_assoc, ← List.append_assoc]
      exact hnext
  have hinit := hf.init s h0
  exact key as s [] [] (hi s h0) (hinit ▸ .init) hc hr

/-! History variables. -/

section History

variable {η : Type*} {M : System τ α} {C : τ → α → Prop} {h₀ : η} {record : τ × η → α → η}

/-- The same system with a variable that no step depends on. -/
def withHistory (M : System τ α) (h₀ : η) (record : τ × η → α → η) : System (τ × η) α where
  init x := M.init x.1 ∧ x.2 = h₀
  step x a := (M.step x.1 a).map fun s => (s, record x a)

theorem step_withHistory {x : τ × η} {a : α} {u : τ} (hu : M.step x.1 a = some u) :
    (M.withHistory h₀ record).step x a = some (u, record x a) := by
  rw [withHistory]
  simp only [hu, Option.map_some]

theorem run_withHistory {x : τ × η} {t : τ} {as : List α} (hr : M.run x.1 as = some t) :
    ∃ h, (M.withHistory h₀ record).run x as = some (t, h) := by
  induction as generalizing x with
  | nil =>
    cases hr
    exact ⟨x.2, rfl⟩
  | cons a as ih =>
    rw [run_cons] at hr
    obtain ⟨u, hu, ht⟩ := Option.bind_eq_some_iff.mp hr
    obtain ⟨h, hh⟩ := ih (x := (u, record x a)) ht
    refine ⟨h, ?_⟩
    rw [run_cons, step_withHistory hu]
    exact hh

theorem complies_withHistory {x : τ × η} {as : List α} (hc : M.Complies C x.1 as) :
    (M.withHistory h₀ record).Complies (fun y a => C y.1 a) x as := by
  induction as generalizing x with
  | nil => trivial
  | cons a as ih =>
    refine ⟨hc.1, ?_⟩
    intro y hy
    obtain ⟨u, hu, rfl⟩ := Option.map_eq_some_iff.mp hy
    exact ih (x := (u, record x a)) (hc.2 u hu)

end History

end System

end Jellybean
