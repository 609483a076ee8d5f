import Mathlib.Logic.Function.Basic

namespace Jellybean

/-- A step system. An action resolves every choice left open by one atomic step, so
that `step` is a partial function and a schedule is a list of actions. -/
structure System (σ : Type*) (α : Type*) where
  init : σ → Prop
  step : σ → α → Option σ

namespace System

variable {σ α : Type*}

/-- Executes a schedule; `none` when some action is not enabled. -/
def run (M : System σ α) : σ → List α → Option σ
  | s, [] => some s
  | s, a :: as => (M.step s a).bind fun t => M.run t as

/-- States reached by runs all of whose steps satisfy `C`. -/
inductive ReachableUnder (M : System σ α) (C : σ → α → Prop) : σ → Prop
  | init {s : σ} : M.init s → ReachableUnder M C s
  | step {s t : σ} {a : α} : ReachableUnder M C s → C s a → M.step s a = some t →
      ReachableUnder M C t

def Reachable (M : System σ α) : σ → Prop := M.ReachableUnder fun _ _ => True

variable {M : System σ α} {C : σ → α → Prop}

theorem ReachableUnder.mono {D : σ → α → Prop} (hd : ∀ s a, C s a → D s a) {s : σ}
    (h : M.ReachableUnder C s) : M.ReachableUnder D s := by
  induction h with
  | init hi => exact .init hi
  | step _ hc hs ih => exact .step ih (hd _ _ hc) hs

theorem ReachableUnder.reachable {s : σ} (h : M.ReachableUnder C s) : M.Reachable s :=
  h.mono fun _ _ _ => trivial

/-- The invariant rule: it holds initially and every admitted step keeps it. -/
theorem ReachableUnder.invariant {P : σ → Prop} (hi : ∀ s, M.init s → P s)
    (hs : ∀ s a t, P s → C s a → M.step s a = some t → P t) {s : σ}
    (h : M.ReachableUnder C s) : P s := by
  induction h with
  | init h => exact hi _ h
  | step _ hc ht ih => exact hs _ _ _ ih hc ht

theorem Reachable.invariant {P : σ → Prop} (hi : ∀ s, M.init s → P s)
    (hs : ∀ s a t, P s → M.step s a = some t → P t) {s : σ} (h : M.Reachable s) : P s :=
  ReachableUnder.invariant hi (fun s a t hp _ ht => hs s a t hp ht) h

theorem Reachable.next {s t : σ} {a : α} (h : M.Reachable s) (ht : M.step s a = some t) :
    M.Reachable t :=
  .step h trivial ht

@[simp] theorem run_nil (s : σ) : M.run s [] = some s := rfl

theorem run_cons (s : σ) (a : α) (as : List α) :
    M.run s (a :: as) = (M.step s a).bind fun t => M.run t as := rfl

theorem run_append (s : σ) (as bs : List α) :
    M.run s (as ++ bs) = (M.run s as).bind fun t => M.run t bs := by
  induction as generalizing s with
  | nil => rfl
  | cons a as ih => simp only [List.cons_append, run_cons, ih, Option.bind_assoc]

/-- Every step of the schedule satisfies `C`. -/
def Complies (M : System σ α) (C : σ → α → Prop) : σ → List α → Prop
  | _, [] => True
  | s, a :: as => C s a ∧ ∀ t ∈ M.step s a, M.Complies C t as

instance decidableComplies [∀ s a, Decidable (C s a)] :
    (s : σ) → (as : List α) → Decidable (M.Complies C s as)
  | _, [] => .isTrue trivial
  | s, a :: as =>
    have (t : σ) : Decidable (M.Complies C t as) := decidableComplies t as
    inferInstanceAs (Decidable (C s a ∧ ∀ t ∈ M.step s a, M.Complies C t as))

theorem Complies.of_prefix {s : σ} {as bs : List α} (h : M.Complies C s as) (hp : bs <+: as) :
    M.Complies C s bs := by
  induction bs generalizing s as with
  | nil => trivial
  | cons b bs ih =>
    obtain ⟨cs, rfl⟩ := hp
    refine ⟨h.1, ?_⟩
    intro t ht
    exact ih (h.2 t ht) ⟨cs, rfl⟩

/-- A schedule may be checked against a condition `D` that implies `C` where `I` holds. -/
theorem ReachableUnder.run_of {D : σ → α → Prop} {I : σ → Prop}
    (hi : ∀ s a t, I s → D s a → M.step s a = some t → I t)
    (hd : ∀ s a, I s → D s a → C s a) {s t : σ} {as : List α} (h : M.ReachableUnder C s)
    (hs : I s) (hc : M.Complies D s as) (hr : M.run s as = some t) : M.ReachableUnder C t := by
  induction as generalizing s with
  | nil =>
    cases hr
    exact h
  | cons a as ih =>
    rw [run_cons] at hr
    obtain ⟨u, hu, ht⟩ := Option.bind_eq_some_iff.mp hr
    exact ih (.step h (hd s a hs hc.1) hu) (hi s a u hs hc.1 hu) (hc.2 u hu) ht

theorem ReachableUnder.run {s t : σ} {as : List α} (h : M.ReachableUnder C s)
    (hc : M.Complies C s as) (hr : M.run s as = some t) : M.ReachableUnder C t :=
  h.run_of (I := fun _ => True) (fun _ _ _ _ _ _ => trivial) (fun _ _ _ hd => hd) trivial hc hr

theorem complies_true (s : σ) (as : List α) : M.Complies (fun _ _ => True) s as := by
  induction as generalizing s with
  | nil => trivial
  | cons a as ih => exact ⟨trivial, fun t _ => ih t⟩

theorem Reachable.run {s t : σ} {as : List α} (h : M.Reachable s) (hr : M.run s as = some t) :
    M.Reachable t :=
  ReachableUnder.run h (complies_true s as) hr

/-- Some finite sequence of steps with actions in `C` leads to a state with `P`. -/
def CanReach (M : System σ α) (C : α → Prop) (P : σ → Prop) (s : σ) : Prop :=
  ∃ as t, (∀ a ∈ as, C a) ∧ M.run s as = some t ∧ P t

namespace CanReach

variable {C : α → Prop} {P : σ → Prop}

theorem here {s : σ} (h : P s) : M.CanReach C P s :=
  ⟨[], s, by simp, rfl, h⟩

theorem step {s t : σ} {a : α} (ha : C a) (hs : M.step s a = some t) (h : M.CanReach C P t) :
    M.CanReach C P s := by
  obtain ⟨as, u, hc, hr, hp⟩ := h
  refine ⟨a :: as, u, ?_, ?_, hp⟩
  · intro b hb
    rcases List.mem_cons.mp hb with rfl | hb
    · exact ha
    · exact hc b hb
  · rw [run_cons, hs]
    exact hr

theorem trans {R : σ → Prop} {s : σ} (h : M.CanReach C P s)
    (hp : ∀ t, P t → M.CanReach C R t) : M.CanReach C R s := by
  obtain ⟨as, t, hc, hr, ht⟩ := h
  obtain ⟨bs, u, hd, hu, hru⟩ := hp t ht
  refine ⟨as ++ bs, u, ?_, ?_, hru⟩
  · intro a ha
    rcases List.mem_append.mp ha with ha | ha
    · exact hc a ha
    · exact hd a ha
  · rw [run_append, hr]
    exact hu

/-- What every step keeps also holds where the sequence ends. -/
theorem elim {Q : σ → Prop} (hq : ∀ s a t, Q s → C a → M.step s a = some t → Q t) {s : σ}
    (h : M.CanReach C P s) (hs : Q s) : ∃ t, Q t ∧ P t := by
  obtain ⟨as, t, hc, hr, hp⟩ := h
  induction as generalizing s with
  | nil =>
    cases hr
    exact ⟨_, hs, hp⟩
  | cons a as ih =>
    rw [run_cons] at hr
    obtain ⟨u, hu, hr⟩ := Option.bind_eq_some_iff.mp hr
    exact ih (hq s a u hs (hc a (by simp)) hu) (fun b hb => hc b (by simp [hb])) hr

/-- The variant rule: away from the goal some admitted step keeps `Q` and lowers `μ`. -/
theorem of_variant {Q : σ → Prop} (μ : σ → Nat)
    (hq : ∀ s, Q s → P s ∨ ∃ a t, C a ∧ M.step s a = some t ∧ Q t ∧ μ t < μ s) {s : σ}
    (hs : Q s) : M.CanReach C P s := by
  induction hn : μ s using Nat.strongRecOn generalizing s with
  | _ n ih =>
    rcases hq s hs with hp | ⟨a, t, ha, ht, hqt, hlt⟩
    · exact here hp
    · exact step ha ht (ih (μ t) (hn ▸ hlt) hqt rfl)

end CanReach

end System

end Jellybean
