import Jellybean.Memory.ArenaRanges

namespace Jellybean.Memory

/-! Which sums of a call can wrap around and still lead to a pointer. -/

/-- One of the sums before the test for room wraps around. -/
def Overflows (a : ArenaAllocator) (size alignment : Nat) : Prop :=
  2^64 ≤ a.current + alignment - 1 ∨ 2^64 ≤ alignAddress a.current alignment + size

instance (a : ArenaAllocator) (size alignment : Nat) : Decidable (Overflows a size alignment) :=
  inferInstanceAs (Decidable (_ ∨ _))

instance (a : ArenaAllocator) (size alignment : Nat) : Decidable (Fits a size alignment) :=
  inferInstanceAs (Decidable (_ ≤ _))

/-- `malloc` has no room for the block. -/
def Refused (h : Heap) (a : ArenaAllocator) (size alignment ptr : Nat) : Prop :=
  (h.malloc (blockBytes (newSize a size alignment)) ptr).isNone = true

/-- An assertion or `malloc` stops the program, or no sum on the way wraps around. -/
def Unwrapped (ndebug : Bool) (h : Heap) (a : ArenaAllocator) (size alignment ptr : Nat) : Prop :=
  if Overflows a size alignment then
    ndebug = false ∨ ¬ Fits a size alignment ∧ Refused h a size alignment ptr
  else
    Fits a size alignment ∨ Refused h a size alignment ptr ∨
      size + alignment < 2^64 ∧ sizeofBlock + max a.blockSize (size + alignment) - 1 < 2^64

instance (ndebug : Bool) (h : Heap) (a : ArenaAllocator) (size alignment ptr : Nat) :
    Decidable (Unwrapped ndebug h a size alignment ptr) :=
  have : Decidable (Refused h a size alignment ptr) := inferInstanceAs (Decidable (_ = true))
  inferInstanceAs (Decidable (if Overflows a size alignment then
      ndebug = false ∨ ¬ Fits a size alignment ∧ Refused h a size alignment ptr
    else Fits a size alignment ∨ Refused h a size alignment ptr ∨
      size + alignment < 2^64 ∧ sizeofBlock + max a.blockSize (size + alignment) - 1 < 2^64))

/-- What a call from `w` to `w'` is to do: no sum wraps, and the range it returns lies in the bytes
asked of `malloc` for a block of the arena. -/
structure Bounded (w w' : World) (i : Nat) (a : ArenaAllocator) (size alignment ptr : Nat) :
    Prop where
  fast : a.current + alignment - 1 < 2^64 ∧ alignAddress a.current alignment + size < 2^64
  slow : ¬ Fits a size alignment → size + alignment < 2^64 ∧
    sizeofBlock + newSize a size alignment - 1 < 2^64 ∧ ptr + dataOffset + alignment - 1 < 2^64
  range : ∃ p, w'.live i = w.live i ++ [⟨⟨p, size⟩, alignment⟩] ∧ p + size < 2^64 ∧
    ∃ q ∈ w'.owned i, ∃ bytes, ⟨q, bytes⟩ ∈ w'.heap.allocated ∧
      Region.Within ⟨p, size⟩ ⟨q, bytes⟩

variable {h h' : Heap} {a a' : ArenaAllocator} {o : List Nat} {l : List Range}
  {size alignment ptr p : Nat} {ndebug : Bool}

/-! The assertions. -/

theorem alignAddress_lt (cur alignment : Nat) : alignAddress cur alignment < 2^64 :=
  lt_of_le_of_lt Nat.and_le_left (Nat.mod_lt _ (by decide))

theorem alignAddress_wrapped {cur k : Nat} (hk : k < 64) (hlt : cur < 2^64)
    (hw : 2^64 ≤ cur + 2^k - 1) : alignAddress cur (2^k) = 0 := by
  have hpos : 0 < 2^k := Nat.two_pow_pos k
  have hpow : 2^k < 2^64 := Nat.pow_lt_pow_right (by decide) hk
  have hsum : (cur + 2^k + (2^64 - 1)) % 2^64 = cur + 2^k - 1 - 2^64 := by
    rw [show cur + 2^k + (2^64 - 1) = cur + 2^k - 1 - 2^64 + 2^64 + 2^64 by omega,
      Nat.add_mod_right, Nat.add_mod_right, Nat.mod_eq_of_lt (by omega)]
  have hmask : (2^k + (2^64 - 1)) % 2^64 = 2^k - 1 := by
    rw [show 2^k + (2^64 - 1) = 2^k - 1 + 2^64 by omega, Nat.add_mod_right,
      Nat.mod_eq_of_lt (by omega)]
  unfold alignAddress
  rw [hsum, hmask, and_not_mask (by omega) hk.le, Nat.div_eq_of_lt (by omega), Nat.zero_mul]

theorem alignmentOk_two_pow (ndebug : Bool) (k : Nat) : AlignmentOk ndebug (2^k) := by
  have hand : 2^k &&& (2^k - 1) = 0 := by
    rw [Nat.and_two_pow_sub_one_eq_mod, Nat.mod_self]
  constructor
  · simp [fails]
  · simp [fails, hand]

/-- The two assertions catch every overflow before the test for room. -/
theorem not_overflows_of_asserts (hal : ∃ k < 64, alignment = 2^k) (hcur : a.current < 2^64)
    (hs : size < 2^64) (hle : a.current ≤ alignAddress a.current alignment)
    (hle' : alignAddress a.current alignment ≤ (alignAddress a.current alignment + size) % 2^64) :
    ¬ Overflows a size alignment := by
  obtain ⟨k, hk, rfl⟩ := hal
  have hpow : 2^k < 2^64 := Nat.pow_lt_pow_right (by decide) hk
  have haligned := alignAddress_lt a.current (2^k)
  intro hover
  cases hover with
  | inl hfirst =>
    rw [alignAddress_wrapped hk hcur hfirst] at hle
    omega
  | inr hsecond =>
    generalize alignAddress a.current (2^k) = aligned at *
    have hmod : (aligned + size) % 2^64 = aligned + size - 2^64 := by
      rw [Nat.mod_eq_sub_mod hsecond, Nat.mod_eq_of_lt (by omega)]
    omega

theorem asserts_of_not_overflows (hal : ∃ k < 64, alignment = 2^k)
    (hover : ¬ Overflows a size alignment) :
    a.current ≤ alignAddress a.current alignment ∧
      alignAddress a.current alignment ≤ (alignAddress a.current alignment + size) % 2^64 := by
  obtain ⟨k, hk, rfl⟩ := hal
  obtain ⟨hcur, hnext⟩ := not_or.mp hover
  constructor
  · rw [alignAddress_eq hk (Nat.lt_of_not_le hcur)]
    exact le_roundUp (Nat.two_pow_pos k)
  · rw [Nat.mod_eq_of_lt (Nat.lt_of_not_le hnext)]
    exact Nat.le_add_right _ _

/-! When a call returns. -/

theorem allocateSlow_isSome (hch : Chained h o a) (hm : ¬ Refused h a size alignment ptr) :
    ∃ r, a.allocateSlow h size alignment ptr = some r := by
  have hmalloc : ∃ h₁, (a.recordUsed h).malloc (blockBytes (newSize a size alignment)) ptr =
      some h₁ := by
    unfold Refused Heap.malloc at hm
    unfold Heap.malloc
    rw [recordUsed_allocated]
    split at hm
    · rename_i hok
      rw [if_pos hok]
      exact ⟨_, rfl⟩
    · exact absurd rfl hm
  obtain ⟨h₁, hh₁⟩ := hmalloc
  unfold blockBytes newSize at hh₁
  unfold ArenaAllocator.allocateSlow ArenaAllocator.allocateBlock
  dsimp only
  rw [hh₁, Option.bind_some]
  cases hf : a.firstBlock with
  | none => exact ⟨_, rfl⟩
  | some first =>
    obtain ⟨q, hq⟩ := Option.ne_none_iff_exists'.mp (hch.headSome (by rw [hf]; simp))
    rw [hq]
    exact ⟨_, rfl⟩

/-! The invariant, without the ranges. -/

/-- Blocks are not null, `current_` and `end_` lie in the head block, or all are null. -/
structure Sound (h : Heap) (o : List Nat) (_l : List Range) (a : ArenaAllocator) : Prop where
  placed : Placed h o [] a
  nonnull : ∀ q ∈ o, q ≠ 0
  empty : a.head = none → a.current = 0

/-- The requests that keep it. -/
def Exact (_h : Heap) (a : ArenaAllocator) (size alignment : Nat) : Prop :=
  (∃ k < 64, alignment = 2^k) ∧ NoWrap a size alignment

theorem Sound.current_lt (hs : Sound h o l a) : a.current < 2^64 := by
  cases hh : a.head with
  | none =>
    rw [hs.empty hh]
    decide
  | some q =>
    obtain ⟨c, -, hco, hc⟩ := hs.placed.chained.chain
    have hb := hs.placed.bound q (hco q (hc q hh))
    obtain ⟨-, hle, hend⟩ := hs.placed.head q hh
    simp only [sizeofBlock, dataOffset] at *
    omega

theorem Placed.idle (hp : Placed h o [] a) (hh : a.head = none) (c : Nat) :
    Placed h o [] { a with current := c } := by
  refine ⟨⟨hp.chained.owned, hp.chained.chain, hp.chained.headSome⟩, hp.regions, hp.bound,
    hp.apart, hp.noHead, ?_, by simp, by simp, List.Pairwise.nil⟩
  intro q hq
  cases hh.symm.trans hq

theorem Sound.bump (hs : Sound h o l a) (he : Exact h a size alignment)
    (hfit : Fits a size alignment) :
    Sound h o (l ++ [⟨⟨alignAddress a.current alignment, size⟩, alignment⟩])
      { a with current := (alignAddress a.current alignment + size) % 2^64 } := by
  obtain ⟨hpow, hcur, hnext, -⟩ := he
  by_cases hh : a.head = none
  · refine ⟨hs.placed.idle hh _, hs.nonnull, ?_⟩
    intro _
    have hend := hs.placed.noHead hh
    unfold Fits at hfit
    rw [hend] at hfit
    exact Nat.le_zero.mp hfit
  · have hsome := Option.ne_none_iff_exists'.mp hh
    exact ⟨(hs.placed.bump hpow hcur hnext hsome hfit).forget, hs.nonnull, fun hn => absurd hn hh⟩

theorem Sound.grow (hs : Sound h o l a) (he : Exact h a size alignment)
    (hfit : ¬ Fits a size alignment) (hg : Grown h a size alignment ptr h' a' p) :
    Sound h' (o ++ [ptr]) (l ++ [⟨⟨p, size⟩, alignment⟩]) a' := by
  obtain ⟨hpow, -, -, hslow⟩ := he
  obtain ⟨hsum, hbytes⟩ := hslow hfit
  refine ⟨(hs.placed.grow hpow hsum hbytes hg).forget, ?_, ?_⟩
  · intro q hq
    rcases List.mem_append.mp hq with hq | hq
    · exact hs.nonnull q hq
    · rw [List.mem_singleton.mp hq]
      exact hg.nonnull
  · intro hh
    cases hg.head.symm.trans hh

theorem Sound.recycle {first : Nat} (hs : Sound h o l a) (hr : Recycled h a first h' a') :
    Sound h' o [] a' := by
  refine ⟨hs.placed.recycle hr, hs.nonnull, ?_⟩
  intro hh
  rw [hr.arena] at hh
  cases hh

theorem Sound.kept : Kept Exact Sound where
  chained hs := hs.placed.chained
  frame hs hag := ⟨hs.placed.frame hag, hs.nonnull, hs.empty⟩
  empty blockSize := ⟨.empty blockSize, by simp, fun _ => rfl⟩
  bump := Sound.bump
  grow := Sound.grow
  forget hs := ⟨hs.placed, hs.nonnull, hs.empty⟩
  recycle := Sound.recycle

/-! Runs. -/

/-- The requests of a run: sizes of 64 bits and powers of two, and no sum wraps unnoticed. -/
def Safely (ndebug : Bool) (w : World) : Action → Prop
  | .allocate i size alignment ptr | .construct i size alignment ptr =>
    (size < 2^64 ∧ ∃ k < 64, alignment = 2^k) ∧
      ∀ a, w.arenas i = some a → Unwrapped ndebug w.heap a size alignment ptr
  | _ => True

instance decidableSafely (ndebug : Bool) (w : World) : (x : Action) → Decidable (Safely ndebug w x)
  | .allocate i size alignment ptr | .construct i size alignment ptr =>
    inferInstanceAs (Decidable ((size < 2^64 ∧ ∃ k < 64, alignment = 2^k) ∧
      ∀ a ∈ w.arenas i, Unwrapped ndebug w.heap a size alignment ptr))
  | .create .. | .reset _ | .moveConstruct .. | .moveAssign .. | .destroy _ => .isTrue trivial

theorem allocateSlow_refused (hm : Refused h a size alignment ptr)
    {r : Heap × ArenaAllocator × Nat} : a.allocateSlow h size alignment ptr ≠ some r := by
  intro hr
  unfold ArenaAllocator.allocateSlow ArenaAllocator.allocateBlock at hr
  obtain ⟨⟨h₂, a₂⟩, hblock, -⟩ := Option.map_eq_some_iff.mp hr
  obtain ⟨h₁, hmalloc, -⟩ := Option.bind_eq_some_iff.mp hblock
  obtain ⟨h1, h2, h3, -⟩ := malloc_spec hmalloc
  rw [recordUsed_allocated] at h3
  unfold Refused Heap.malloc blockBytes newSize at hm
  rw [if_pos ⟨h1, h2, h3⟩] at hm
  cases hm

theorem newSize_eq (h : size + alignment < 2^64) :
    newSize a size alignment = max a.blockSize (size + alignment) := by
  rw [newSize, Nat.mod_eq_of_lt h]

theorem noWrap_of_returned (hcur : a.current < 2^64) (hs : size < 2^64)
    (hal : ∃ k < 64, alignment = 2^k) (hu : Unwrapped ndebug h a size alignment ptr)
    {r : Heap × ArenaAllocator × Nat} (hr : a.allocate ndebug h size alignment ptr = some r) :
    NoWrap a size alignment := by
  have hrefused : ¬ Fits a size alignment → ¬ Refused h a size alignment ptr := by
    intro hfit hm
    rcases allocate_cases hr with ⟨hfit', -⟩ | ⟨-, hslow⟩
    · exact hfit hfit'
    · exact allocateSlow_refused hm hslow
  unfold Unwrapped at hu
  by_cases hover : Overflows a size alignment
  · rw [if_pos hover] at hu
    exfalso
    rcases hu with hdebug | ⟨hfit, hm⟩
    · obtain ⟨hle, hle'⟩ := (allocate_asserts hr).2 hdebug
      exact not_overflows_of_asserts hal hcur hs hle hle' hover
    · exact hrefused hfit hm
  · rw [if_neg hover] at hu
    obtain ⟨hfirst, hsecond⟩ := not_or.mp hover
    refine ⟨Nat.lt_of_not_le hfirst, Nat.lt_of_not_le hsecond, ?_⟩
    intro hfit
    obtain ⟨hsum, hbytes⟩ := (hu.resolve_left hfit).resolve_left (hrefused hfit)
    rw [newSize_eq hsum]
    exact ⟨hsum, hbytes⟩

variable {w w' : World} {i : Nat}

theorem admits_of_safely (hw : Each Sound w) {x : Action} (hx : Safely ndebug w x)
    (ht : World.step ndebug w x = some w') : Admits Exact w x := by
  cases x with
  | allocate i size alignment ptr =>
    obtain ⟨⟨hs, hal⟩, hu⟩ := hx
    obtain ⟨a, ha, hmap⟩ := Option.bind_eq_some_iff.mp ht
    obtain ⟨r, hr, -⟩ := Option.map_eq_some_iff.mp hmap
    intro b hb
    cases ha.symm.trans hb
    exact ⟨hal, noWrap_of_returned (hw i a ha).current_lt hs hal (hu a ha) hr⟩
  | construct i size alignment ptr =>
    obtain ⟨⟨hs, hal⟩, hu⟩ := hx
    obtain ⟨a, ha, hmap⟩ := Option.bind_eq_some_iff.mp ht
    obtain ⟨r, hr, -⟩ := Option.map_eq_some_iff.mp hmap
    intro b hb
    cases ha.symm.trans hb
    exact ⟨hal, noWrap_of_returned (hw i a ha).current_lt hs hal (hu a ha) hr⟩
  | _ => trivial

theorem sound_of_reachable (hr : (World.system ndebug).ReachableUnder (Safely ndebug) w) :
    Separate w ∧ Each Sound w := by
  apply hr.invariant (P := fun w => Separate w ∧ Each Sound w)
  · intro w hw
    rw [show w = World.initial from hw]
    exact each_initial Sound
  · intro w x t hw hx ht
    exact Sound.kept.step hw (admits_of_safely hw.2 hx ht) ht

/-! One call in such a state. -/

theorem step_allocate (ha : w.arenas i = some a) (ht : World.step ndebug w
    (.allocate i size alignment ptr) = some w') :
    ∃ r, a.allocate ndebug w.heap size alignment ptr = some r ∧ w' = w.returned i size alignment r := by
  obtain ⟨b, hb, hmap⟩ := Option.bind_eq_some_iff.mp ht
  cases ha.symm.trans hb
  obtain ⟨r, hr, heq⟩ := Option.map_eq_some_iff.mp hmap
  exact ⟨r, hr, heq.symm⟩

theorem step_of_allocate (ha : w.arenas i = some a) {r : Heap × ArenaAllocator × Nat}
    (hr : a.allocate ndebug w.heap size alignment ptr = some r) :
    World.step ndebug w (.allocate i size alignment ptr) = some (w.returned i size alignment r) := by
  simp only [World.step, ha, Option.bind_some, hr, Option.map_some]

theorem returned_live (w : World) (i size alignment : Nat) (r : Heap × ArenaAllocator × Nat) :
    (w.returned i size alignment r).live i = w.live i ++ [⟨⟨r.2.2, size⟩, alignment⟩] :=
  Function.update_self ..

/-- A range placed in a block of the arena. -/
theorem Placed.range {r : Range} (hp : Placed h o (l ++ [r]) a) :
    r.base + r.size < 2^64 ∧ ∃ q ∈ o, ∃ bytes, ⟨q, bytes⟩ ∈ h.allocated ∧
      r.Within ⟨q, bytes⟩ := by
  obtain ⟨q, hq, hwithin, -⟩ := hp.within r (List.mem_append_right _ (List.mem_singleton_self r))
  have hb := hp.bound q hq
  refine ⟨?_, q, hq, _, hp.regions q hq, hwithin.trans (data_within q)⟩
  have hend := hwithin.2
  simp only [data, sizeofBlock, dataOffset] at *
  omega

/-- A request of no bytes needs a block too. -/
def Safe (ndebug : Bool) (h : Heap) (a : ArenaAllocator) (size alignment ptr : Nat) : Prop :=
  (a.head = none → 0 < size) ∧ Unwrapped ndebug h a size alignment ptr

instance (ndebug : Bool) (h : Heap) (a : ArenaAllocator) (size alignment ptr : Nat) :
    Decidable (Safe ndebug h a size alignment ptr) :=
  inferInstanceAs (Decidable ((a.head = none → 0 < size) ∧ Unwrapped ndebug h a size alignment ptr))

theorem Sound.bounded (hs : Sound w.heap (w.owned i) (w.live i) a) (hsize : size < 2^64)
    (hal : ∃ k < 64, alignment = 2^k) (hsafe : Safe ndebug w.heap a size alignment ptr)
    {r : Heap × ArenaAllocator × Nat} (hr : a.allocate ndebug w.heap size alignment ptr = some r) :
    Bounded w (w.returned i size alignment r) i a size alignment ptr := by
  obtain ⟨hcur, hnext, hslow⟩ := noWrap_of_returned hs.current_lt hsize hal hsafe.2 hr
  rcases allocate_cases hr with ⟨hfit, rfl⟩ | ⟨hfit, halloc⟩
  · have hhead : ∃ q, a.head = some q := by
      by_cases hh : a.head = none
      · exact hs.placed.head_of_fits (hsafe.1 hh) hnext hfit
      · exact Option.ne_none_iff_exists'.mp hh
    obtain ⟨hlt, q, hq, bytes, hmem, hwithin⟩ :=
      (hs.placed.bump hal hcur hnext hhead hfit).range
    refine ⟨⟨hcur, hnext⟩, fun hnot => absurd hfit hnot, _, returned_live .., hlt, q, ?_,
      bytes, hmem, hwithin⟩
    simpa [World.returned] using hq
  · obtain ⟨h', a', p⟩ := r
    have hg := grown_of_allocateSlow (fun q hq => hs.placed.chained.head_mem hq) halloc
    obtain ⟨hsum, hbytes⟩ := hslow hfit
    obtain ⟨hlt, q, hq, bytes, hmem, hwithin⟩ := (hs.placed.grow hal hsum hbytes hg).range
    refine ⟨⟨hcur, hnext⟩, fun _ => ⟨hsum, hbytes, ?_⟩, p, returned_live .., hlt, q, ?_,
      bytes, hmem, hwithin⟩
    · have hbound := hg.bound
      have hle : size + alignment ≤ newSize a size alignment := newSize_eq hsum ▸ le_max_right _ _
      unfold blockBytes at hbound
      rw [Nat.mod_eq_of_lt hbytes] at hbound
      simp only [sizeofBlock, dataOffset] at *
      omega
    · simpa [World.returned, hg.allocated] using hq

/-- Where the condition fails there is a pointer to complain about. -/
theorem Sound.safe (hs : Sound w.heap (w.owned i) (w.live i) a)
    (hal : ∃ k < 64, alignment = 2^k)
    (hb : ∀ r, a.allocate ndebug w.heap size alignment ptr = some r →
      Bounded w (w.returned i size alignment r) i a size alignment ptr) :
    Safe ndebug w.heap a size alignment ptr := by
  have halign : AlignmentOk ndebug alignment := by
    obtain ⟨k, -, rfl⟩ := hal
    exact alignmentOk_two_pow ndebug k
  constructor
  · intro hh
    by_contra hzero
    have hzero : size = 0 := Nat.eq_zero_of_not_pos hzero
    subst hzero
    have haligned : alignAddress a.current alignment = 0 := by
      rw [hs.empty hh, alignAddress_zero]
    have hfast : a.allocate ndebug w.heap 0 alignment ptr = _ := allocate_fast halign (fun _ => by
      rw [haligned, hs.empty hh]
      exact ⟨le_rfl, Nat.zero_le _⟩) (by
      unfold Fits
      rw [haligned]
      exact Nat.zero_le _)
    obtain ⟨p, hlive, -, q, hq, bytes, -, hwithin⟩ := (hb _ hfast).range
    rw [returned_live] at hlive
    have hrange := (List.cons.inj (List.append_cancel_left hlive)).1
    have hp : alignAddress a.current alignment = p := congrArg (fun r : Range => r.base) hrange
    have hq : q ∈ w.owned i := by simpa [World.returned] using hq
    -- the null pointer lies in no block
    have hpos := hs.nonnull q hq
    have hle := hwithin.1
    dsimp only at hle
    omega
  · by_contra hnot
    unfold Unwrapped at hnot
    by_cases hover : Overflows a size alignment
    · rw [if_pos hover] at hnot
      obtain ⟨hrelease, hreturn⟩ := not_or.mp hnot
      have hsome : ∃ r, a.allocate ndebug w.heap size alignment ptr = some r := by
        rw [allocate_of_asserts halign fun hd => absurd hd hrelease]
        by_cases hfit : Fits a size alignment
        · exact ⟨_, if_pos hfit⟩
        · have hm : ¬ Refused w.heap a size alignment ptr := fun hm => hreturn ⟨hfit, hm⟩
          obtain ⟨r, hr⟩ := allocateSlow_isSome hs.placed.chained hm
          exact ⟨r, (if_neg hfit).trans hr⟩
      obtain ⟨r, hr⟩ := hsome
      obtain ⟨hcur, hnext⟩ := (hb r hr).fast
      cases hover with
      | inl hfirst => omega
      | inr hsecond => omega
    · rw [if_neg hover] at hnot
      obtain ⟨hfit, hrest⟩ := not_or.mp hnot
      obtain ⟨hm, hsums⟩ := not_or.mp hrest
      obtain ⟨r, hslow⟩ := allocateSlow_isSome hs.placed.chained hm
      have hr : a.allocate ndebug w.heap size alignment ptr = some r := by
        rw [allocate_of_asserts halign fun _ => asserts_of_not_overflows hal hover]
        exact (if_neg hfit).trans hslow
      obtain ⟨hsum, hbytes, -⟩ := (hb r hr).slow hfit
      rw [newSize_eq hsum] at hbytes
      exact hsums ⟨hsum, hbytes⟩

/-- In every state of a run without such wraps, a request of any size stops the program or is
served within the bytes of one block, exactly if it is safe. -/
theorem allocate_bounded_iff (ndebug : Bool) (w : World)
    (hr : (World.system ndebug).ReachableUnder (Safely ndebug) w) (i : Nat) (a : ArenaAllocator)
    (ha : w.arenas i = some a) (size alignment ptr : Nat) (hsize : size < 2^64)
    (hal : ∃ k < 64, alignment = 2^k) :
    (∀ w', World.step ndebug w (.allocate i size alignment ptr) = some w' →
        Bounded w w' i a size alignment ptr) ↔
      Safe ndebug w.heap a size alignment ptr := by
  have hs := (sound_of_reachable hr).2 i a ha
  constructor
  · intro hb
    apply hs.safe hal
    intro r hret
    exact hb _ (step_of_allocate ha hret)
  · intro hsafe w' ht
    obtain ⟨r, hret, rfl⟩ := step_allocate ha ht
    exact hs.bounded hsize hal hsafe hret

def oneArena : List Action := [.create 0 64, .allocate 0 40 16 4096, .allocate 0 0 8 0]

/-- A request for all but the last bytes of the address space trips an assertion. -/
theorem allocate_bounded_iff_oneArena :
    ∃ w, (World.system false).run World.initial oneArena = some w ∧
      w.live 0 = [⟨⟨4128, 40⟩, 16⟩, ⟨⟨4168, 0⟩, 8⟩] ∧
      ∃ a, w.arenas 0 = some a ∧
        (∀ w', World.step false w (.allocate 0 24 8 8192) = some w' → Bounded w w' 0 a 24 8 8192) ∧
        Safe false w.heap a (2^64 - 8) 16 8192 := by
  have hrun : ((World.system false).run World.initial oneArena).map
      (fun w => (w.live 0, (w.arenas 0).map fun a =>
        decide (Safe false w.heap a 24 8 8192 ∧ Safe false w.heap a (2^64 - 8) 16 8192))) =
      some ([⟨⟨4128, 40⟩, 16⟩, ⟨⟨4168, 0⟩, 8⟩], some true) := by
    decide +kernel
  obtain ⟨w, hw, hobs⟩ := Option.map_eq_some_iff.mp hrun
  obtain ⟨hlive, hsafe⟩ := Prod.mk.inj hobs
  obtain ⟨a, ha, hsafe⟩ := Option.map_eq_some_iff.mp hsafe
  obtain ⟨hfits, htrips⟩ := of_decide_eq_true hsafe
  have hc : (World.system false).Complies (Safely false) World.initial oneArena := by
    decide +kernel
  have hr := System.ReachableUnder.run (M := World.system false) (.init rfl) hc hw
  exact ⟨w, hw, hlive, a, ha,
    (allocate_bounded_iff false w hr 0 a ha 24 8 8192 (by decide) ⟨3, by decide, rfl⟩).mpr hfits,
    htrips⟩

/-- The same request on an arena without a block: the sum with the alignment wraps to eight bytes. -/
theorem empty_arena_wraps :
    ∃ w, (World.system false).run World.initial [.create 0 64, .allocate 0 (2^64 - 8) 16 4096] =
        some w ∧
      w.live 0 = [⟨⟨4128, 2^64 - 8⟩, 16⟩] ∧ w.heap.allocated = [⟨4096, 111⟩] ∧
      ¬ 4128 + (2^64 - 8) < 2^64 ∧ ¬ Region.Within ⟨4128, 2^64 - 8⟩ ⟨4096, 111⟩ := by
  have hrun : ((World.system false).run World.initial
      [.create 0 64, .allocate 0 (2^64 - 8) 16 4096]).map
        (fun w => (w.live 0, w.heap.allocated)) =
      some ([⟨⟨4128, 2^64 - 8⟩, 16⟩], [⟨4096, 111⟩]) := by
    decide +kernel
  obtain ⟨w, hw, hobs⟩ := Option.map_eq_some_iff.mp hrun
  obtain ⟨hlive, hallocated⟩ := Prod.mk.inj hobs
  exact ⟨w, hw, hlive, hallocated, by decide, by unfold Region.Within; decide⟩

end Jellybean.Memory
