import Jellybean.Memory.SlabMoves

namespace Jellybean.Memory.Slab

variable {α : Type} {T : Params α} {m m' : Storage α} {a a' b : SlabAllocator}
  {live free lost rest : List SlotPtr} {p slot : SlotPtr} {chunk : Nat} {w t : World α}

def IsFree (T : Params α) (m : Storage α) (a : SlabAllocator) (q : SlotPtr) : Prop :=
  OnList (m.next T) a.freeListHead q

/-- The slots of chunks that `a` does not have yet. -/
def Added (T : Params α) (a a' : SlabAllocator) (q : SlotPtr) : Prop :=
  Owns T a' q ∧ q.chunk ∉ a.chunks

/-- The free slots are those of before, and the slots of a chunk that was added. -/
def FreeKept (T : Params α) (m : Storage α) (a : SlabAllocator) (m' : Storage α)
    (a' : SlabAllocator) : Prop :=
  ∀ q, IsFree T m' a' q ↔ IsFree T m a q ∨ Added T a a' q

/-- The live and the free slots are all slots of the allocator. -/
def Complete (T : Params α) (m : Storage α) (a : SlabAllocator) (live : List SlotPtr) : Prop :=
  ∀ q, q ∈ live ∨ IsFree T m a q ↔ Owns T a q

/-- How many constructors have thrown in each allocator; a moved allocator takes its number along. -/
def countThrow (f : Nat → Nat) : Action α → Nat → Nat
  | .create i | .destroy i => Function.update f i 0
  | .allocate i none _ => Function.update f i (f i + 1)
  | .allocate _ (some _) _ | .deallocate _ _ => f
  | .moveConstruct i source | .moveAssign i source =>
    Function.update (Function.update f i (f source)) source 0

def thrown (as : List (Action α)) : Nat → Nat := as.foldl countThrow fun _ => 0

/-- Every slot of the allocator is lost, free or live, and only one of the three. -/
structure Accounts (T : Params α) (m : Storage α) (a : SlabAllocator)
    (lost free live : List SlotPtr) : Prop where
  holds : Holds T m a free live
  nodup : (lost ++ (free ++ live)).Nodup
  all : ∀ q, q ∈ lost ++ (free ++ live) ↔ Owns T a q

theorem Holds.isFree_iff (h : Holds T m a free live) (q : SlotPtr) : IsFree T m a q ↔ q ∈ free :=
  h.linked.onList_iff

/-- The free list when its head is about to be taken off. -/
theorem Holds.refill_head (h : Holds T m a free live) (hr : a.refill T m chunk = some (m', a'))
    (hslot : a'.freeListHead = some slot) :
    ∃ rest, Holds T m' a' (slot :: rest) live ∧
      (∀ q, q ∈ slot :: rest ↔ q ∈ free ∨ Added T a a' q) ∧
      ∀ q, Owns T a' q ↔ Owns T a q ∨ Added T a a' q := by
  rcases h.refill hr with ⟨rfl, rfl⟩ | ⟨rfl, hh, hch, hfresh, -⟩
  · obtain ⟨rest, rfl⟩ := h.cons_of_head hslot
    have hnone : ∀ q, ¬Added T a' a' q := fun q hq => hq.2 hq.1.1
    refine ⟨rest, h, ?_, ?_⟩
    · intro q
      exact (or_iff_left (hnone q)).symm
    · intro q
      exact (or_iff_left (hnone q)).symm
  · obtain ⟨rest, hrest⟩ := hh.cons_of_head hslot
    have hfresh' : chunk ∉ a.chunks := fun hc => hfresh (h.chunks chunk hc)
    have hadded : ∀ q, Added T a a' q ↔ q ∈ newSlots chunk T.chunkObjects := by
      intro q
      unfold Added Owns
      rw [hch, List.mem_append, List.mem_singleton, mem_newSlots]
      constructor
      · intro hq
        exact ⟨hq.1.1.resolve_left hq.2, hq.1.2⟩
      · intro hq
        exact ⟨⟨.inr hq.1, hq.2⟩, hq.1 ▸ hfresh'⟩
    refine ⟨rest, hrest ▸ hh, ?_, ?_⟩
    · intro q
      rw [hadded q, ← hrest]
      simp
    · intro q
      rw [hadded q, mem_newSlots]
      unfold Owns
      rw [hch, List.mem_append, List.mem_singleton]
      tauto

/-- What a throwing constructor leaves: the slot that was taken is not free any more. -/
theorem Holds.not_freeKept {r : Storage α × SlabAllocator × Option SlotPtr}
    (h : Holds T m a free live) (hr : a.allocate T m none chunk = some r) :
    ¬FreeKept T m a r.1 r.2.1 := by
  obtain ⟨m₁, a₁, slot, hfill, hslot, ⟨v, hv, -⟩ | ⟨-, rfl⟩⟩ := allocate_cases hr
  · cases hv
  obtain ⟨rest, hh, hmem, -⟩ := h.refill_head hfill hslot
  intro hkept
  have hmem' : slot ∈ rest := by
    rw [← hh.lose.isFree_iff]
    apply (hkept slot).mpr
    rw [h.isFree_iff]
    exact (hmem slot).mp List.mem_cons_self
  exact (List.nodup_cons.mp hh.nodup).1 (List.mem_append_left _ hmem')

namespace Accounts

theorem empty : Accounts T m {} [] [] [] := by
  refine ⟨Holds.empty, List.nodup_nil, ?_⟩
  intro q
  constructor
  · intro hq
    cases hq
  · intro hq
    cases hq.1

theorem frame (h : Accounts T m a lost free live) (hag : Agree m m' a) :
    Accounts T m' a lost free live :=
  ⟨h.holds.frame hag, h.nodup, h.all⟩

/-- The slots change hands; none is added or left out. -/
theorem exchange {lost' free' live' : List SlotPtr} (h : Accounts T m a lost free live)
    (hh : Holds T m' a' free' live') (hchunks : a'.chunks = a.chunks)
    (hp : (lost' ++ (free' ++ live')).Perm (lost ++ (free ++ live))) :
    Accounts T m' a' lost' free' live' := by
  refine ⟨hh, hp.nodup_iff.mpr h.nodup, ?_⟩
  intro q
  unfold Owns
  rw [hp.mem_iff, hchunks]
  exact h.all q

theorem pop (h : Accounts T m a lost (slot :: rest) live) (v : α) :
    Accounts T (m.set slot (.storage v)) { a with freeListHead := m.next T slot } lost rest
      (slot :: live) :=
  h.exchange (h.holds.pop v) rfl (List.perm_middle.append_left lost)

/-- The slot of an object whose constructor throws. -/
theorem lose (h : Accounts T m a lost (slot :: rest) live) :
    Accounts T m { a with freeListHead := m.next T slot } (slot :: lost) rest live :=
  h.exchange h.holds.lose rfl List.perm_middle.symm

theorem push (h : Accounts T m a lost free live) (hp : p ∈ live) :
    Accounts T (m.set p (.nextFree a.freeListHead)) { a with freeListHead := some p } lost
      (p :: free) (live.filter (· ≠ p)) := by
  have hlive := (List.nodup_append'.mp h.holds.nodup).2.1
  have herase : live.filter (· ≠ p) = live.erase p := by
    rw [hlive.erase_eq_filter]
    apply List.filter_congr
    intro q _
    simp [bne, Bool.beq_eq_decide_eq]
  refine h.exchange (h.holds.push hp) rfl (List.Perm.append_left lost ?_)
  rw [herase]
  exact List.perm_middle.symm.trans ((List.perm_cons_erase hp).symm.append_left free)

/-- Before the head is taken off, a chunk may be added. -/
theorem refill (h : Accounts T m a lost free live) (hr : a.refill T m chunk = some (m', a'))
    (hslot : a'.freeListHead = some slot) :
    ∃ rest, Accounts T m' a' lost (slot :: rest) live := by
  obtain ⟨rest, hh, hmem, howns⟩ := h.holds.refill_head hr hslot
  obtain ⟨hlost, -, hd⟩ := List.nodup_append'.mp h.nodup
  refine ⟨rest, hh, ?_, ?_⟩
  · refine List.nodup_append'.mpr ⟨hlost, hh.nodup, ?_⟩
    intro q hq hq'
    have ho := (h.all q).mp (List.mem_append_left _ hq)
    rw [List.mem_append, hmem] at hq'
    obtain (hq' | hq') | hq' := hq'
    · exact hd hq (List.mem_append_left _ hq')
    · exact hq'.2 ho.1
    · exact hd hq (List.mem_append_right _ hq')
  · intro q
    rw [howns q, ← h.all q]
    simp only [List.mem_append, hmem]
    tauto

theorem complete_iff (h : Accounts T m a lost free live) : Complete T m a live ↔ lost = [] := by
  constructor
  · intro hc
    apply List.eq_nil_iff_forall_not_mem.mpr
    intro q hq
    have hqs := (hc q).mpr ((h.all q).mp (List.mem_append_left _ hq))
    rw [h.holds.isFree_iff] at hqs
    exact (List.nodup_append'.mp h.nodup).2.2 hq (List.mem_append.mpr hqs.symm)
  · intro hl q
    rw [h.holds.isFree_iff, ← h.all q, hl, List.nil_append, List.mem_append]
    exact or_comm

end Accounts

/-- An allocation takes one slot, for the object or, if the constructor throws, for nothing. -/
theorem Accounts.allocate {object : Option α} {r : Storage α × SlabAllocator × Option SlotPtr}
    (h : Accounts T m a lost free live) (hr : a.allocate T m object chunk = some r) :
    ∃ slot rest, Accounts T r.1 r.2.1 (if object.isSome = true then lost else slot :: lost) rest
      (r.2.2.toList ++ live) := by
  obtain ⟨m₁, a₁, slot, hfill, hslot, hcase⟩ := allocate_cases hr
  obtain ⟨rest, h₁⟩ := h.refill hfill hslot
  refine ⟨slot, rest, ?_⟩
  obtain ⟨v, rfl, rfl⟩ | ⟨rfl, rfl⟩ := hcase
  · exact h₁.pop v
  · exact h₁.lose

/-- `f` counts the lost slots of every allocator. -/
def Ledger (T : Params α) (w : World α) (f : Nat → Nat) : Prop :=
  ∀ i a, w.slabs i = some a →
    ∃ lost free, Accounts T w.storage a lost free (w.live i) ∧ lost.length = f i

def Action.slabs : Action α → List Nat
  | .create i | .allocate i _ _ | .deallocate i _ | .destroy i => [i]
  | .moveConstruct i source | .moveAssign i source => [i, source]

variable {x : Action α} {f : Nat → Nat}

/-- An action leaves the other allocators and their slots alone. -/
theorem step_frame (hs : Separate w) (hw : Each (Sound T) w) (ht : World.step T w x = some t)
    {j : Nat} (hj : j ∉ x.slabs) (hb : t.slabs j = some b) :
    w.slabs j = some b ∧ t.live j = w.live j ∧ Agree w.storage t.storage b := by
  cases x with
  | create i =>
    have hji : j ≠ i := List.ne_of_not_mem_cons hj
    simp only [World.step] at ht
    split_ifs at ht
    cases ht
    dsimp only at hb
    rw [Function.update_of_ne hji] at hb
    exact ⟨hb, rfl, Agree.refl _ _⟩
  | allocate i object chunk =>
    have hji : j ≠ i := List.ne_of_not_mem_cons hj
    obtain ⟨a, ha, hmap⟩ := Option.bind_eq_some_iff.mp ht
    obtain ⟨r, hr, rfl⟩ := Option.map_eq_some_iff.mp hmap
    obtain ⟨free, h⟩ := hw i a ha
    change Function.update w.slabs i _ j = some b at hb
    rw [Function.update_of_ne hji] at hb
    obtain ⟨free', h'⟩ := hw j b hb
    refine ⟨hb, Function.update_of_ne hji _ _, ?_⟩
    exact (allocate_agree h hr h'.chunks (hs.apart i j a b hji.symm ha hb)).1
  | deallocate i ptr =>
    have hji : j ≠ i := List.ne_of_not_mem_cons hj
    obtain ⟨a, ha, hif⟩ := Option.bind_eq_some_iff.mp ht
    split_ifs at hif with hlive
    cases hif
    dsimp only at hb
    rw [Function.update_of_ne hji] at hb
    refine ⟨hb, Function.update_of_ne hji _ _, ?_⟩
    cases ptr with
    | none => exact Agree.refl _ _
    | some p =>
      obtain ⟨free, h⟩ := hw i a ha
      have hpc := (h.owns p (List.mem_append_right _ (hlive p rfl))).1
      exact agree_set (hs.apart i j a b hji.symm ha hb p.chunk hpc)
  | moveConstruct i source =>
    have hji : j ≠ i := List.ne_of_not_mem_cons hj
    have hjs : j ≠ source := fun heq => hj (by simp [Action.slabs, heq])
    simp only [World.step] at ht
    split_ifs at ht
    obtain ⟨c, -, rfl⟩ := Option.map_eq_some_iff.mp ht
    simp only [World.transfer, Function.update_of_ne hjs, Function.update_of_ne hji] at hb ⊢
    exact ⟨hb, trivial, Agree.refl _ _⟩
  | moveAssign i source =>
    have hji : j ≠ i := List.ne_of_not_mem_cons hj
    have hjs : j ≠ source := fun heq => hj (by simp [Action.slabs, heq])
    obtain ⟨a, ha, hmap⟩ := Option.bind_eq_some_iff.mp ht
    obtain ⟨c, -, rfl⟩ := Option.map_eq_some_iff.mp hmap
    simp only [World.transfer, Function.update_of_ne hjs, Function.update_of_ne hji] at hb ⊢
    exact ⟨hb, trivial, freeChunks_agree (hs.apart i j a b hji.symm ha hb)⟩
  | destroy i =>
    have hji : j ≠ i := List.ne_of_not_mem_cons hj
    obtain ⟨a, ha, rfl⟩ := Option.map_eq_some_iff.mp ht
    dsimp only at hb
    rw [Function.update_of_ne hji] at hb
    exact ⟨hb, Function.update_of_ne hji _ _, freeChunks_agree (hs.apart i j a b hji.symm ha hb)⟩

theorem countThrow_frame {j : Nat} (hj : j ∉ x.slabs) : countThrow f x j = f j := by
  cases x with
  | create i => exact Function.update_of_ne (List.ne_of_not_mem_cons hj) _ _
  | destroy i => exact Function.update_of_ne (List.ne_of_not_mem_cons hj) _ _
  | deallocate i ptr => rfl
  | allocate i object chunk =>
    cases object with
    | none => exact Function.update_of_ne (List.ne_of_not_mem_cons hj) _ _
    | some v => rfl
  | moveConstruct i source | moveAssign i source =>
    have hji : j ≠ i := List.ne_of_not_mem_cons hj
    have hjs : j ≠ source := fun heq => hj (by simp [Action.slabs, heq])
    change Function.update (Function.update f i _) source 0 j = f j
    rw [Function.update_of_ne hjs, Function.update_of_ne hji]

/-- The members of an allocator without free slots are moved. -/
theorem Ledger.transfer {i source : Nat} (hl : Ledger T w f) (hb : w.slabs source = some b)
    (hn : b.freeListHead = none) (hag : source ≠ i → Agree w.storage m b) {c : SlabAllocator}
    {j : Nat} (hj : j = i ∨ j = source) (hc : (w.transfer m i source b).slabs j = some c) :
    ∃ lost free, Accounts T (w.transfer m i source b).storage c lost free
        ((w.transfer m i source b).live j) ∧
      lost.length = Function.update (Function.update f i (f source)) source 0 j := by
  by_cases hjs : j = source
  · subst hjs
    simp only [World.transfer, Function.update_self, Option.some.injEq] at hc ⊢
    rw [← hc, movedFrom_eq hn]
    exact ⟨[], [], Accounts.empty, rfl⟩
  · have hji : j = i := hj.resolve_right hjs
    subst hji
    simp only [World.transfer, Function.update_of_ne hjs, Function.update_self,
      Option.some.injEq] at hc ⊢
    obtain ⟨lost, free, h, hlen⟩ := hl source b hb
    exact ⟨lost, free, hc ▸ h.frame (hag (Ne.symm hjs)), hlen⟩

theorem Ledger.step (hs : Separate w) (hw : Each (Sound T) w) (hl : Ledger T w f)
    (hx : MovesEmpty w x) (ht : World.step T w x = some t) : Ledger T t (countThrow f x) := by
  intro j b hb
  by_cases hj : j ∈ x.slabs
  swap
  · obtain ⟨hb', hlive, hag⟩ := step_frame hs hw ht hj hb
    obtain ⟨lost, free, h, hlen⟩ := hl j b hb'
    rw [hlive, countThrow_frame hj]
    exact ⟨lost, free, h.frame hag, hlen⟩
  cases x with
  | create i =>
    rw [List.mem_singleton.mp hj] at hb ⊢
    simp only [World.step] at ht
    split_ifs at ht with hn
    cases ht
    simp only [Function.update_self, Option.some.injEq] at hb
    rw [← hb, hs.absent i hn]
    have hzero : countThrow f (.create i : Action α) i = 0 := Function.update_self _ _ _
    exact ⟨[], [], Accounts.empty, hzero.symm⟩
  | allocate i object chunk =>
    rw [List.mem_singleton.mp hj] at hb ⊢
    obtain ⟨a, ha, hmap⟩ := Option.bind_eq_some_iff.mp ht
    obtain ⟨r, hr, rfl⟩ := Option.map_eq_some_iff.mp hmap
    simp only [World.allocated, Function.update_self, Option.some.injEq] at hb ⊢
    obtain ⟨lost, free, h, hlen⟩ := hl i a ha
    obtain ⟨slot, rest, h'⟩ := h.allocate hr
    refine ⟨_, rest, hb ▸ h', ?_⟩
    cases object with
    | some v => exact hlen
    | none =>
      have hone : countThrow f (.allocate i none chunk : Action α) i = f i + 1 :=
        Function.update_self _ _ _
      rw [hone, ← hlen]
      rfl
  | deallocate i ptr =>
    rw [List.mem_singleton.mp hj] at hb ⊢
    obtain ⟨a, ha, hif⟩ := Option.bind_eq_some_iff.mp ht
    split_ifs at hif with hlive
    cases hif
    simp only [Function.update_self, Option.some.injEq] at hb ⊢
    obtain ⟨lost, free, h, hlen⟩ := hl i a ha
    cases ptr with
    | none =>
      refine ⟨lost, free, ?_, hlen⟩
      rw [← hb]
      simpa [SlabAllocator.deallocate] using h
    | some p =>
      refine ⟨lost, p :: free, ?_, hlen⟩
      rw [← hb]
      simpa [SlabAllocator.deallocate, SlabAllocator.push] using h.push (hlive p rfl)
  | moveConstruct i source =>
    simp only [World.step] at ht
    split_ifs at ht
    obtain ⟨c, hc, rfl⟩ := Option.map_eq_some_iff.mp ht
    have hj' : j = i ∨ j = source := by simpa [Action.slabs] using hj
    exact hl.transfer hc (hx c hc) (fun _ => Agree.refl _ _) hj' hb
  | moveAssign i source =>
    obtain ⟨a, ha, hmap⟩ := Option.bind_eq_some_iff.mp ht
    obtain ⟨c, hc, rfl⟩ := Option.map_eq_some_iff.mp hmap
    have hj' : j = i ∨ j = source := by simpa [Action.slabs] using hj
    refine hl.transfer hc (hx c hc) ?_ hj' hb
    intro hne
    exact freeChunks_agree (hs.apart i source a c hne.symm ha hc)
  | destroy i =>
    rw [List.mem_singleton.mp hj] at hb
    obtain ⟨a, ha, rfl⟩ := Option.map_eq_some_iff.mp ht
    simp at hb

theorem Ledger.run {as : List (Action α)} (hw : Separate w ∧ Each (Sound T) w)
    (hl : Ledger T w f) (hc : (system T).Complies MovesEmpty w as)
    (hr : (system T).run w as = some t) : Ledger T t (as.foldl countThrow f) := by
  induction as generalizing w f with
  | nil =>
    cases hr
    exact hl
  | cons x as ih =>
    rw [System.run_cons] at hr
    obtain ⟨u, hu, hr⟩ := Option.bind_eq_some_iff.mp hr
    exact ih (Sound.kept.step hw hc.1 hu) (hl.step hw.1 hw.2 hc.1 hu) (hc.2 u hu) hr

/-- A call whose constructor throws never leaves the free slots as they were; and in a run in which
only allocators without free slots are moved, the slots of an allocator are all free or live exactly
when no constructor has thrown in it. -/
theorem complete_iff_none_thrown (T : Params α) :
    (∀ m a free live, Holds T m a free live → ∀ chunk r, a.allocate T m none chunk = some r →
      ¬FreeKept T m a r.1 r.2.1) ∧
    ∀ as w, (system T).run World.initial as = some w →
      (system T).Complies MovesEmpty World.initial as → ∀ i a, w.slabs i = some a →
        (Complete T w.storage a (w.live i) ↔ thrown as i = 0) := by
  constructor
  · intro m a free live h chunk r hr
    exact h.not_freeKept hr
  · intro as w hr hc i a ha
    have hinit : Separate (World.initial (α := α)) ∧ Each (Sound T) World.initial :=
      Sound.kept.invariant (.init rfl)
    have hempty : Ledger T World.initial fun _ => 0 := by
      intro j b hb
      cases hb
    obtain ⟨lost, free, h, hlen⟩ := hempty.run hinit hc hr i a ha
    rw [h.complete_iff, ← List.length_eq_zero_iff]
    exact Eq.congr_left hlen

/-- Two allocators; in the first one a constructor throws. -/
def oneThrows : List (Action Nat) :=
  [.create 0, .create 1, .allocate 0 none 0, .allocate 1 (some 10) 1, .allocate 0 (some 11) 2]

theorem complete_iff_none_thrown_oneThrows :
    (∃ r, ({} : SlabAllocator).allocate pairs World.initial.storage none 0 = some r ∧
      ¬FreeKept pairs World.initial.storage {} r.1 r.2.1) ∧
    ∃ w a b, (system pairs).run World.initial oneThrows = some w ∧ w.slabs 0 = some a ∧
      w.slabs 1 = some b ∧ ¬Complete pairs w.storage a (w.live 0) ∧
      Complete pairs w.storage b (w.live 1) := by
  constructor
  · have hr : (({} : SlabAllocator).allocate pairs World.initial.storage none 0).isSome = true := by
      decide +kernel
    obtain ⟨r, hr⟩ := Option.isSome_iff_exists.mp hr
    exact ⟨r, hr, (complete_iff_none_thrown pairs).1 _ _ _ _ Holds.empty 0 r hr⟩
  · have hrun : ((system pairs).run World.initial oneThrows).map
        (fun w => ((w.slabs 0).isSome, (w.slabs 1).isSome)) = some (true, true) := by
      decide +kernel
    obtain ⟨w, hw, hobs⟩ := Option.map_eq_some_iff.mp hrun
    obtain ⟨h0, h1⟩ := Prod.mk.inj hobs
    obtain ⟨a, ha⟩ := Option.isSome_iff_exists.mp h0
    obtain ⟨b, hb⟩ := Option.isSome_iff_exists.mp h1
    have hc : (system pairs).Complies MovesEmpty World.initial oneThrows := by decide +kernel
    have hiff := (complete_iff_none_thrown pairs).2 oneThrows w hw hc
    refine ⟨w, a, b, hw, ha, hb, ?_, ?_⟩
    · rw [hiff 0 a ha]
      decide
    · rw [hiff 1 b hb]
      decide

/-- One constructor throws in a fresh allocator: of the two slots of its chunk one is free, none is
live, and the other is lost. -/
theorem throw_loses_slot :
    ∃ w a, (system pairs).run World.initial [.create 0, .allocate 0 none 0] = some w ∧
      w.slabs 0 = some a ∧ w.live 0 = [] ∧ (∀ q, IsFree pairs w.storage a q ↔ q = ⟨0, 0⟩) ∧
      Owns pairs a ⟨0, 1⟩ ∧ ¬Complete pairs w.storage a (w.live 0) ∧
      ¬FreeKept pairs World.initial.storage {} w.storage a := by
  have hrun : ((system pairs).run World.initial [.create 0, .allocate 0 none 0]).map
      (fun w => (w.slabs 0, w.live 0, w.storage.next pairs ⟨0, 0⟩)) =
        some (some ⟨[0], some ⟨0, 0⟩⟩, [], none) := by
    decide +kernel
  obtain ⟨w, hw, hobs⟩ := Option.map_eq_some_iff.mp hrun
  simp only [Prod.mk.injEq] at hobs
  obtain ⟨ha, hlive, hnext⟩ := hobs
  have hlink : Linked (w.storage.next pairs) (some ⟨0, 0⟩) [⟨0, 0⟩] := ⟨rfl, hnext⟩
  have hfree : ∀ q, IsFree pairs w.storage ⟨[0], some ⟨0, 0⟩⟩ q ↔ q = ⟨0, 0⟩ := by
    intro q
    exact hlink.onList_iff.trans List.mem_singleton
  have howns : Owns pairs ⟨[0], some ⟨0, 0⟩⟩ ⟨0, 1⟩ := ⟨List.mem_singleton_self 0, by decide⟩
  have hlost : ¬IsFree pairs w.storage ⟨[0], some ⟨0, 0⟩⟩ ⟨0, 1⟩ := by
    rw [hfree]
    decide
  refine ⟨w, _, hw, ha, hlive, hfree, howns, ?_, ?_⟩
  · intro hc
    rw [hlive] at hc
    exact hlost (((hc ⟨0, 1⟩).mpr howns).resolve_left List.not_mem_nil)
  · intro hkept
    exact hlost ((hkept ⟨0, 1⟩).mpr (.inr ⟨howns, List.not_mem_nil⟩))

end Jellybean.Memory.Slab
