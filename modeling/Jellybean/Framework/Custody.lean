import Mathlib.Logic.ExistsUnique
import Mathlib.Tactic

namespace Jellybean

variable {κ ρ : Type*}

/-- Every resource is held at exactly one place. -/
def Exclusive (Held : κ → ρ → Prop) : Prop := ∀ r, ∃! l, Held l r

namespace Exclusive

variable {Held Held' : κ → ρ → Prop}

theorem place_eq (h : Exclusive Held) {l k : κ} {r : ρ} (hl : Held l r) (hk : Held k r) : l = k :=
  (h r).unique hl hk

theorem not_held (h : Exclusive Held) {l k : κ} {r : ρ} (hl : Held l r) (hne : k ≠ l) :
    ¬ Held k r :=
  fun hk => hne (h.place_eq hk hl)

/-- Moving one resource from `l` to `k` keeps every resource at one place. -/
theorem transfer (h : Exclusive Held) {l k : κ} {r : ρ} (hl : Held l r)
    (hm : ∀ m q, Held' m q ↔ (m = k ∧ q = r) ∨ (Held m q ∧ ¬ (m = l ∧ q = r))) :
    Exclusive Held' := by
  intro q
  rcases eq_or_ne q r with rfl | hq
  · refine ⟨k, (hm k q).mpr (.inl ⟨rfl, rfl⟩), fun m hh => ?_⟩
    rcases (hm m q).mp hh with ⟨rfl, -⟩ | ⟨hh, hne⟩
    · rfl
    · exact absurd ⟨h.place_eq hh hl, rfl⟩ hne
  · obtain ⟨m, hh, hu⟩ := h q
    refine ⟨m, (hm m q).mpr (.inr ⟨hh, fun e => hq e.2⟩), fun n hn => ?_⟩
    rcases (hm n q).mp hn with ⟨-, e⟩ | ⟨hn, -⟩
    · exact absurd e hq
    · exact hu n hn

end Exclusive

/-- No resource has two holders; it may have none. -/
def Apart (Held : κ → ρ → Prop) : Prop := ∀ l k r, l ≠ k → Held l r → ¬ Held k r

namespace Apart

variable {Held Held' : κ → ρ → Prop}

/-- Only `i` gets resources, and none that another has. -/
theorem update (h : Apart Held) {i : κ} (hother : ∀ l r, l ≠ i → Held' l r → Held l r)
    (hi : ∀ l r, l ≠ i → Held' i r → ¬ Held l r) : Apart Held' := by
  intro l k r hlk hl hk
  by_cases hli : l = i
  · subst hli
    exact hi k r hlk.symm hl (hother k r hlk.symm hk)
  · by_cases hki : k = i
    · subst hki
      exact hi l r hli hk (hother l r hli hl)
    · exact h l k r hlk (hother l r hli hl) (hother k r hki hk)

/-- All that `source` has goes to `i`. -/
theorem handOver (h : Apart Held) (i source : κ) (hsource : ∀ r, ¬ Held' source r)
    (hi : i ≠ source → ∀ r, Held' i r → Held source r)
    (hother : ∀ l r, l ≠ i → l ≠ source → Held' l r → Held l r) : Apart Held' := by
  intro l k r hlk hl hk
  have hls : l ≠ source := by
    intro heq
    exact hsource r (heq ▸ hl)
  have hks : k ≠ source := by
    intro heq
    exact hsource r (heq ▸ hk)
  by_cases hli : l = i
  · subst hli
    exact h source k r hks.symm (hi hls r hl) (hother k r hlk.symm hks hk)
  · by_cases hki : k = i
    · subst hki
      exact h l source r hls (hother l r hli hls hl) (hi hks r hk)
    · exact h l k r hlk (hother l r hli hls hl) (hother k r hki hks hk)

end Apart

end Jellybean
