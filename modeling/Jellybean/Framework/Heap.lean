import Mathlib.Logic.Function.Basic
import Mathlib.Logic.ExistsUnique
import Mathlib.Tactic

namespace Jellybean

/-- An allocated block. Addresses are used again, serial numbers are not. -/
structure Block (β : Type*) where
  serial : Nat
  content : β

/-- The live blocks by address, how many were ever allocated, and how often each was freed. -/
structure Heap (β : Type*) where
  blocks : Nat → Option (Block β)
  allocated : Nat
  frees : Nat → Nat

namespace Heap

variable {β κ : Type*}

def empty : Heap β := ⟨fun _ => none, 0, fun _ => 0⟩

def alloc (h : Heap β) (a : Nat) (x : β) : Heap β :=
  ⟨Function.update h.blocks a (some ⟨h.allocated, x⟩), h.allocated + 1, h.frees⟩

/-- `none` if no live block starts at the address. -/
def free (h : Heap β) (a : Nat) : Option (Heap β) :=
  (h.blocks a).map fun b => ⟨Function.update h.blocks a none, h.allocated,
    Function.update h.frees b.serial (h.frees b.serial + 1)⟩

/-- Every allocated block is live and never freed, or freed once. -/
structure Valid (h : Heap β) : Prop where
  live : ∀ a b, h.blocks a = some b → b.serial < h.allocated ∧ h.frees b.serial = 0
  serial_inj : ∀ a b a' b', h.blocks a = some b → h.blocks a' = some b' →
    b.serial = b'.serial → a = a'
  settled : ∀ k, k < h.allocated → (∃ a b, h.blocks a = some b ∧ b.serial = k) ∨ h.frees k = 1
  beyond : ∀ k, h.allocated ≤ k → h.frees k = 0

theorem valid_empty : (empty : Heap β).Valid where
  live := by
    intro a b hb
    cases hb
  serial_inj := by
    intro a b a' b' hb
    cases hb
  settled := by
    intro k hk
    cases hk
  beyond _ _ := rfl

section Update

variable {h : Heap β} {a : Nat}

theorem blocks_alloc {x : β} {a' : Nat} {b : Block β} (hb : (h.alloc a x).blocks a' = some b) :
    (a' = a ∧ b = ⟨h.allocated, x⟩) ∨ (a' ≠ a ∧ h.blocks a' = some b) := by
  by_cases ha : a' = a
  · subst ha
    simp only [alloc, Function.update_self, Option.some.injEq] at hb
    exact .inl ⟨rfl, hb.symm⟩
  · simp only [alloc, Function.update_of_ne ha] at hb
    exact .inr ⟨ha, hb⟩

theorem Valid.alloc (hv : h.Valid) (ha : h.blocks a = none) (x : β) : (h.alloc a x).Valid where
  live := by
    intro a' b hb
    rcases blocks_alloc hb with ⟨-, rfl⟩ | ⟨-, hb⟩
    · exact ⟨Nat.lt_succ_self _, hv.beyond _ (Nat.le_refl _)⟩
    · have := hv.live a' b hb
      exact ⟨Nat.lt_succ_of_lt this.1, this.2⟩
  serial_inj := by
    intro a₁ b₁ a₂ b₂ h₁ h₂ heq
    rcases blocks_alloc h₁ with ⟨rfl, rfl⟩ | ⟨-, h₁⟩
    · rcases blocks_alloc h₂ with ⟨rfl, -⟩ | ⟨-, h₂⟩
      · rfl
      · have hlt := (hv.live a₂ b₂ h₂).1
        rw [← heq] at hlt
        exact absurd hlt (Nat.lt_irrefl _)
    · rcases blocks_alloc h₂ with ⟨-, rfl⟩ | ⟨-, h₂⟩
      · have hlt := (hv.live a₁ b₁ h₁).1
        rw [heq] at hlt
        exact absurd hlt (Nat.lt_irrefl _)
      · exact hv.serial_inj a₁ b₁ a₂ b₂ h₁ h₂ heq
  settled := by
    intro k hk
    rcases Nat.lt_succ_iff_lt_or_eq.mp hk with hk | rfl
    · rcases hv.settled k hk with ⟨a', b, hb, hs⟩ | hf
      · have hne : a' ≠ a := by
          intro heq
          rw [heq, ha] at hb
          cases hb
        exact .inl ⟨a', b, by simp [Heap.alloc, hne, hb], hs⟩
      · exact .inr hf
    · exact .inl ⟨a, ⟨h.allocated, x⟩, by simp [Heap.alloc], rfl⟩
  beyond k hk := hv.beyond k (Nat.le_of_succ_le hk)

theorem free_eq {b : Block β} (hb : h.blocks a = some b) :
    h.free a = some ⟨Function.update h.blocks a none, h.allocated,
      Function.update h.frees b.serial (h.frees b.serial + 1)⟩ := by
  simp [free, hb]

theorem blocks_free {h' : Heap β} (hf : h.free a = some h') (a' : Nat) :
    h'.blocks a' = if a' = a then none else h.blocks a' := by
  obtain ⟨b, -, rfl⟩ := Option.map_eq_some_iff.mp hf
  exact Function.update_apply _ _ _ _

theorem Valid.free (hv : h.Valid) {h' : Heap β} (hf : h.free a = some h') : h'.Valid := by
  obtain ⟨b, hb, rfl⟩ := Option.map_eq_some_iff.mp hf
  have hlive : ∀ a' b', Function.update h.blocks a none a' = some b' →
      h.blocks a' = some b' ∧ b'.serial ≠ b.serial := by
    intro a' b' hb'
    have hne : a' ≠ a := by
      intro heq
      simp [heq] at hb'
    rw [Function.update_of_ne hne] at hb'
    exact ⟨hb', fun heq => hne (hv.serial_inj a' b' a b hb' hb heq)⟩
  constructor
  · intro a' b' hb'
    obtain ⟨hb', hne⟩ := hlive a' b' hb'
    simp only [Function.update_of_ne hne]
    exact hv.live a' b' hb'
  · intro a₁ b₁ a₂ b₂ h₁ h₂
    exact hv.serial_inj a₁ b₁ a₂ b₂ (hlive a₁ b₁ h₁).1 (hlive a₂ b₂ h₂).1
  · intro k hk
    by_cases hkb : k = b.serial
    · subst hkb
      exact .inr (by simp [(hv.live a b hb).2])
    · simp only [Function.update_of_ne hkb]
      rcases hv.settled k hk with ⟨a', b', hb', hs⟩ | hf
      · have hne : a' ≠ a := by
          intro heq
          rw [heq, hb] at hb'
          cases hb'
          exact hkb hs.symm
        exact .inl ⟨a', b', by rw [Function.update_of_ne hne, hb'], hs⟩
      · exact .inr hf
  · intro k hk
    have hkb : k ≠ b.serial := by
      have := (hv.live a b hb).1
      have : h.allocated ≤ k := hk
      omega
    simp only [Function.update_of_ne hkb]
    exact hv.beyond k hk

end Update

/-- Places own blocks, each at most one: what is owned is live, what is live is owned, and by one
place. -/
structure Owned (h : Heap β) (own : κ → Option Nat) : Prop where
  valid : h.Valid
  live : ∀ p a, own p = some a → ∃ b, h.blocks a = some b
  owner : ∀ a b, h.blocks a = some b → ∃ p, own p = some a
  unique : ∀ p q a, own p = some a → own q = some a → p = q

namespace Owned

variable {h : Heap β} {own : κ → Option Nat}

theorem empty : (Heap.empty : Heap β).Owned (fun _ : κ => none) where
  valid := valid_empty
  live := by
    intro p a hp
    cases hp
  owner := by
    intro a b hb
    cases hb
  unique := by
    intro p q a hp
    cases hp

/-- Every block ever allocated has one owner and was not freed, or has none and was freed once. -/
theorem freed_once (hw : h.Owned own) {k : Nat} (hk : k < h.allocated) :
    (∃! p, ∃ a b, own p = some a ∧ h.blocks a = some b ∧ b.serial = k) ∧ h.frees k = 0 ∨
      (¬ ∃ p a b, own p = some a ∧ h.blocks a = some b ∧ b.serial = k) ∧ h.frees k = 1 := by
  by_cases hlive : ∃ a b, h.blocks a = some b ∧ b.serial = k
  · obtain ⟨a, b, hb, rfl⟩ := hlive
    obtain ⟨p, hp⟩ := hw.owner a b hb
    refine .inl ⟨⟨p, ⟨a, b, hp, hb, rfl⟩, ?_⟩, (hw.valid.live a b hb).2⟩
    intro q ⟨a', b', hq, hb', hs⟩
    rw [hw.valid.serial_inj a' b' a b hb' hb hs] at hq
    exact hw.unique q p a hq hp
  · refine .inr ⟨?_, (hw.valid.settled k hk).resolve_left hlive⟩
    intro ⟨p, a, b, _, hb, hs⟩
    exact hlive ⟨a, b, hb, hs⟩

variable [DecidableEq κ] {i k : κ} {a : Nat}

theorem alloc (hw : h.Owned own) (hi : own i = none) (ha : h.blocks a = none) (x : β) :
    (h.alloc a x).Owned (Function.update own i (some a)) := by
  have hfree : ∀ p, own p ≠ some a := by
    intro p hp
    obtain ⟨b, hb⟩ := hw.live p a hp
    rw [ha] at hb
    cases hb
  constructor
  · exact hw.valid.alloc ha x
  · intro p a' hp
    by_cases haa : a' = a
    · exact ⟨⟨h.allocated, x⟩, by simp [Heap.alloc, haa]⟩
    · have hpi : p ≠ i := by
        intro heq
        rw [heq, Function.update_self] at hp
        exact haa (Option.some.inj hp).symm
      rw [Function.update_of_ne hpi] at hp
      obtain ⟨b, hb⟩ := hw.live p a' hp
      exact ⟨b, by simp [Heap.alloc, haa, hb]⟩
  · intro a' b hb
    rcases blocks_alloc hb with ⟨rfl, -⟩ | ⟨-, hb⟩
    · exact ⟨i, Function.update_self _ _ _⟩
    · obtain ⟨p, hp⟩ := hw.owner a' b hb
      have hpi : p ≠ i := by
        intro heq
        rw [heq, hi] at hp
        cases hp
      exact ⟨p, by rw [Function.update_of_ne hpi, hp]⟩
  · intro p q a' hp hq
    by_cases hpi : p = i
    · by_cases hqi : q = i
      · rw [hpi, hqi]
      · rw [Function.update_of_ne hqi] at hq
        rw [hpi, Function.update_self] at hp
        exact absurd (hq.trans hp.symm) (hfree q)
    · rw [Function.update_of_ne hpi] at hp
      by_cases hqi : q = i
      · rw [hqi, Function.update_self] at hq
        exact absurd (hp.trans hq.symm) (hfree p)
      · rw [Function.update_of_ne hqi] at hq
        exact hw.unique p q a' hp hq

theorem free (hw : h.Owned own) (hi : own i = some a) {h' : Heap β} (hf : h.free a = some h') :
    h'.Owned (Function.update own i none) := by
  have hother : ∀ p a', Function.update own i none p = some a' → own p = some a' ∧ a' ≠ a := by
    intro p a' hp
    have hpi : p ≠ i := by
      intro heq
      simp [heq] at hp
    rw [Function.update_of_ne hpi] at hp
    refine ⟨hp, ?_⟩
    intro heq
    exact hpi (hw.unique p i a (heq ▸ hp) hi)
  constructor
  · exact hw.valid.free hf
  · intro p a' hp
    obtain ⟨hp, hne⟩ := hother p a' hp
    obtain ⟨b, hb⟩ := hw.live p a' hp
    exact ⟨b, by rw [blocks_free hf, if_neg hne, hb]⟩
  · intro a' b hb
    rw [blocks_free hf] at hb
    split at hb
    · cases hb
    · next hne =>
      obtain ⟨p, hp⟩ := hw.owner a' b hb
      have hpi : p ≠ i := by
        intro heq
        rw [heq, hi] at hp
        exact hne (Option.some.inj hp).symm
      exact ⟨p, by rw [Function.update_of_ne hpi, hp]⟩
  · intro p q a' hp hq
    exact hw.unique p q a' (hother p a' hp).1 (hother q a' hq).1

/-- What `i` owns goes to `k`. -/
theorem transfer (hw : h.Owned own) (hk : own k = none) (hne : i ≠ k) :
    h.Owned (Function.update (Function.update own k (own i)) i none) := by
  have hcases : ∀ p a', Function.update (Function.update own k (own i)) i none p = some a' →
      p ≠ i ∧ own (if p = k then i else p) = some a' := by
    intro p a' hp
    have hpi : p ≠ i := by
      intro heq
      simp [heq] at hp
    rw [Function.update_of_ne hpi] at hp
    refine ⟨hpi, ?_⟩
    by_cases hpk : p = k
    · simpa [hpk] using hp
    · simpa [hpk] using hp
  constructor
  · exact hw.valid
  · intro p a' hp
    exact hw.live _ a' (hcases p a' hp).2
  · intro a' b hb
    obtain ⟨p, hp⟩ := hw.owner a' b hb
    by_cases hpi : p = i
    · refine ⟨k, ?_⟩
      rw [Function.update_of_ne hne.symm, Function.update_self, ← hpi, hp]
    · have hpk : p ≠ k := by
        intro heq
        rw [heq, hk] at hp
        cases hp
      exact ⟨p, by rw [Function.update_of_ne hpi, Function.update_of_ne hpk, hp]⟩
  · intro p q a' hp hq
    obtain ⟨hpi, hp⟩ := hcases p a' hp
    obtain ⟨hqi, hq⟩ := hcases q a' hq
    have heq := hw.unique _ _ a' hp hq
    split at heq <;> split at heq
    · next h₁ h₂ => rw [h₁, h₂]
    · exact absurd heq.symm hqi
    · exact absurd heq hpi
    · exact heq

end Owned

end Heap

end Jellybean
