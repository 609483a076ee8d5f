import Jellybean.Memory.ArenaInvariant

namespace Jellybean.Memory

/-! Passes over the same requests with a `reset` before each. -/

structure AllocRequest where
  size : Nat
  alignment : Nat
  deriving DecidableEq

/-- The requests in order; `answers k` is what `malloc` returns if the `k`-th one asks for a
block. The last component are the pointers returned. -/
def allocateAll (ndebug : Bool) (h : Heap) (a : ArenaAllocator) :
    List AllocRequest → (Nat → Nat) → Option (Heap × ArenaAllocator × List Nat)
  | [], _ => some (h, a, [])
  | r :: rs, answers =>
    (a.allocate ndebug h r.size r.alignment (answers 0)).bind fun (h, a, p) =>
      (allocateAll ndebug h a rs fun k => answers (k + 1)).map fun (h, a, ps) => (h, a, p :: ps)

/-- What can be seen after a pass: its pointers, what `malloc` has given out so far, and
`total_allocated_`. -/
structure Pass where
  pointers : List Nat
  allocated : List Region
  totalAllocated : Nat
  deriving DecidableEq

/-- `reset()` and the requests again, once for every element of `replays`. -/
def replayAll (ndebug : Bool) (rs : List AllocRequest) (h : Heap) (a : ArenaAllocator) :
    List (Nat → Nat) → Option (List Pass)
  | [] => some []
  | answers :: replays =>
    (a.reset h).bind fun (h, a) => (allocateAll ndebug h a rs answers).bind fun (h, a, ps) =>
      (replayAll ndebug rs h a replays).map (⟨ps, h.allocated, a.totalAllocated⟩ :: ·)

/-- The requests fit one after the other between `cur` and `end_`, and no assertion on the way
stops the program. -/
def FitTogether (ndebug : Bool) (end_ : Nat) : Nat → List AllocRequest → Prop
  | _, [] => True
  | cur, r :: rs =>
    let aligned := alignAddress cur r.alignment
    let next := (aligned + r.size) % 2^64
    (ndebug = false → cur ≤ aligned ∧ aligned ≤ next) ∧ next ≤ end_ ∧ FitTogether ndebug end_ next rs

instance decidableFitTogether (ndebug : Bool) (end_ : Nat) :
    (cur : Nat) → (rs : List AllocRequest) → Decidable (FitTogether ndebug end_ cur rs)
  | _, [] => .isTrue trivial
  | _, _ :: rs =>
    have (next : Nat) := decidableFitTogether ndebug end_ next rs
    inferInstanceAs (Decidable (_ ∧ _ ∧ _))

/-- All of them fit into the block that the first one leads to, at the address `ptr`. -/
def FitFirstBlock (ndebug : Bool) (blockSize ptr : Nat) (rs : List AllocRequest) : Prop :=
  match rs with
  | [] => True
  | r :: _ =>
    let size := max blockSize ((r.size + r.alignment) % 2^64)
    FitTogether ndebug ((ptr + dataOffset + size) % 2^64) (ptr + dataOffset) rs

instance (ndebug : Bool) (blockSize ptr : Nat) :
    (rs : List AllocRequest) → Decidable (FitFirstBlock ndebug blockSize ptr rs)
  | [] => .isTrue trivial
  | _ :: _ => decidableFitTogether ndebug _ _ _

variable {ndebug : Bool} {h h' : Heap} {a a' : ArenaAllocator} {rs : List AllocRequest}
  {answers : Nat → Nat} {ps : List Nat} {size alignment ptr p blockSize : Nat}

/-! One call. -/

/-- A fresh arena has no room for a byte. -/
theorem not_fits_fresh (hpos : 0 < size) (hlt : size < 2^64) :
    ¬ Fits { blockSize := blockSize } size alignment := by
  unfold Fits
  rw [alignAddress_zero, Nat.zero_add, Nat.mod_eq_of_lt hlt]
  exact Nat.not_le_of_lt hpos

/-- `head_` points to a block. -/
def Rooted (h : Heap) (a : ArenaAllocator) : Prop :=
  ∀ q, a.head = some q → q ∈ h.allocated.map Region.base

/-- The first block of the arena is at `first` and has `size` bytes. -/
structure Founded (first size : Nat) (h : Heap) (a : ArenaAllocator) : Prop where
  firstBlock : a.firstBlock = some first
  size : (h.block first).size = size
  allocated : first ∈ h.allocated.map Region.base
  rooted : Rooted h a

/-- A call takes no block, or one more. -/
theorem allocate_grows (hroot : Rooted h a)
    (hr : a.allocate ndebug h size alignment ptr = some (h', a', p)) :
    Rooted h' a' ∧ (Fits a size alignment ∧ h' = h ∧ a'.end_ = a.end_ ∧
        a'.current = (alignAddress a.current alignment + size) % 2^64 ∨
      ¬ Fits a size alignment ∧ h'.allocated.length = h.allocated.length + 1) := by
  rcases allocate_cases hr with ⟨hfit, heq⟩ | ⟨hfit, hslow⟩
  · obtain ⟨hheap, hrest⟩ := Prod.mk.inj heq
    have harena := (Prod.mk.inj hrest).1
    refine ⟨?_, .inl ⟨hfit, hheap, ?_, ?_⟩⟩
    · intro q hq
      rw [harena] at hq
      rw [hheap]
      exact hroot q hq
    · rw [harena]
    · rw [harena]
  · have hg := grown_of_allocateSlow hroot hslow
    refine ⟨?_, .inr ⟨hfit, ?_⟩⟩
    · intro q hq
      cases hg.head.symm.trans hq
      rw [hg.allocated, List.map_append]
      exact List.mem_append_right _ (List.mem_singleton_self _)
    · rw [hg.allocated, List.length_append, List.length_singleton]

theorem Founded.allocate {first s : Nat} (hf : Founded first s h a)
    (hr : a.allocate ndebug h size alignment ptr = some (h', a', p)) : Founded first s h' a' := by
  refine ⟨?_, ?_, ?_, (allocate_grows hf.rooted hr).1⟩
  all_goals rcases allocate_cases hr with ⟨-, heq⟩ | ⟨-, hslow⟩
  · rw [(Prod.mk.inj (Prod.mk.inj heq).2).1]
    exact hf.firstBlock
  · rw [(grown_of_allocateSlow hf.rooted hslow).firstBlock, hf.firstBlock]
    rfl
  · rw [(Prod.mk.inj heq).1]
    exact hf.size
  · have hg := grown_of_allocateSlow hf.rooted hslow
    rw [hg.sizes, hf.size]
    -- the new block is not the first one
    rintro rfl
    obtain ⟨r, hr, hb⟩ := List.mem_map.mp hf.allocated
    exact (hg.fresh r hr).1 hb
  · rw [(Prod.mk.inj heq).1]
    exact hf.allocated
  · rw [(grown_of_allocateSlow hf.rooted hslow).allocated, List.map_append]
    exact List.mem_append_left _ hf.allocated

/-- The first request of a fresh arena. -/
theorem founded_of_fresh (hpos : 0 < size) (hlt : size < 2^64)
    (hr : ({ blockSize := blockSize } : ArenaAllocator).allocate ndebug h size alignment ptr =
      some (h', a', p)) :
    Grown h { blockSize := blockSize } size alignment ptr h' a' p ∧
      Founded ptr (max blockSize ((size + alignment) % 2^64)) h' a' := by
  have hroot : Rooted h { blockSize := blockSize } := by
    intro q hq
    cases hq
  rcases allocate_cases hr with ⟨hfit, -⟩ | ⟨-, hslow⟩
  · exact absurd hfit (not_fits_fresh hpos hlt)
  · have hg := grown_of_allocateSlow hroot hslow
    refine ⟨hg, hg.firstBlock, ?_, ?_, (allocate_grows hroot hr).1⟩
    · rw [hg.newBlock]
      rfl
    · rw [hg.allocated, List.map_append]
      exact List.mem_append_right _ (List.mem_singleton_self _)

/-! A whole pass. -/

theorem Founded.allocateAll {first s : Nat} (hf : Founded first s h a)
    (hr : allocateAll ndebug h a rs answers = some (h', a', ps)) : Founded first s h' a' := by
  induction rs generalizing h a answers ps with
  | nil =>
    cases hr
    exact hf
  | cons r rs ih =>
    obtain ⟨⟨h₁, a₁, p⟩, hone, hrest⟩ := Option.bind_eq_some_iff.mp hr
    obtain ⟨⟨h₂, a₂, ps'⟩, hall, heq⟩ := Option.map_eq_some_iff.mp hrest
    cases heq
    exact ih (hf.allocate hone) hall

theorem alignment_of_allocateAll (hr : allocateAll ndebug h a rs answers = some (h', a', ps)) :
    ∀ r ∈ rs, AlignmentOk ndebug r.alignment := by
  induction rs generalizing h a answers ps with
  | nil => simp
  | cons r rs ih =>
    obtain ⟨⟨h₁, a₁, p⟩, hone, hrest⟩ := Option.bind_eq_some_iff.mp hr
    obtain ⟨⟨h₂, a₂, ps'⟩, hall, heq⟩ := Option.map_eq_some_iff.mp hrest
    cases heq
    intro x hx
    rcases List.mem_cons.mp hx with rfl | hx
    · exact (allocate_asserts hone).1
    · exact ih hall x hx

theorem length_le_of_allocateAll (hroot : Rooted h a)
    (hr : allocateAll ndebug h a rs answers = some (h', a', ps)) :
    h.allocated.length ≤ h'.allocated.length := by
  induction rs generalizing h a answers ps with
  | nil =>
    cases hr
    exact le_rfl
  | cons r rs ih =>
    obtain ⟨⟨h₁, a₁, p⟩, hone, hrest⟩ := Option.bind_eq_some_iff.mp hr
    obtain ⟨⟨h₂, a₂, ps'⟩, hall, heq⟩ := Option.map_eq_some_iff.mp hrest
    cases heq
    obtain ⟨hroot₁, hcase⟩ := allocate_grows hroot hone
    have hlater := ih hroot₁ hall
    rcases hcase with ⟨-, rfl, -⟩ | ⟨-, hlen⟩
    · exact hlater
    · omega

/-- A pass that takes no block has found room for everything. -/
theorem fitTogether_of_allocateAll (hroot : Rooted h a)
    (hr : allocateAll ndebug h a rs answers = some (h', a', ps))
    (hlen : h'.allocated.length = h.allocated.length) :
    FitTogether ndebug a.end_ a.current rs := by
  induction rs generalizing h a answers ps with
  | nil => trivial
  | cons r rs ih =>
    obtain ⟨⟨h₁, a₁, p⟩, hone, hrest⟩ := Option.bind_eq_some_iff.mp hr
    obtain ⟨⟨h₂, a₂, ps'⟩, hall, heq⟩ := Option.map_eq_some_iff.mp hrest
    cases heq
    obtain ⟨hroot₁, hcase⟩ := allocate_grows hroot hone
    have hlater := length_le_of_allocateAll hroot₁ hall
    rcases hcase with ⟨hfit, rfl, hend, hcur⟩ | ⟨-, hmore⟩
    · have hrec := ih hroot₁ hall hlen
      rw [hend, hcur] at hrec
      exact ⟨(allocate_asserts hone).2, hfit, hrec⟩
    · omega

/-- The pointers of a pass without a new block. -/
def bumped : Nat → List AllocRequest → List Nat
  | _, [] => []
  | cur, r :: rs =>
    alignAddress cur r.alignment :: bumped ((alignAddress cur r.alignment + r.size) % 2^64) rs

/-- Where there is room for everything, a pass only moves `current_`. -/
theorem allocateAll_fits (hal : ∀ r ∈ rs, AlignmentOk ndebug r.alignment)
    (hfit : FitTogether ndebug a.end_ a.current rs) :
    ∃ c, allocateAll ndebug h a rs answers =
      some (h, { a with current := c }, bumped a.current rs) := by
  induction rs generalizing a answers with
  | nil => exact ⟨a.current, rfl⟩
  | cons r rs ih =>
    obtain ⟨hassert, hroom, hrest⟩ := hfit
    have hone : a.allocate ndebug h r.size r.alignment (answers 0) = _ :=
      allocate_fast (hal r List.mem_cons_self) hassert hroom
    obtain ⟨c, hall⟩ : ∃ c, allocateAll ndebug h
        { a with current := (alignAddress a.current r.alignment + r.size) % 2^64 } rs
        (fun k => answers (k + 1)) = some (h, { a with current := c }, _) :=
      ih (fun x hx => hal x (List.mem_cons_of_mem _ hx)) hrest
    refine ⟨c, ?_⟩
    rw [allocateAll, hone, Option.bind_some]
    dsimp only
    rw [hall, Option.map_some, bumped]

/-! The passes after the first one. -/

/-- The first block is the only one. -/
structure Lone (first size : Nat) (h : Heap) (a : ArenaAllocator) : Prop where
  founded : Founded first size h a
  last : h.next first = none

theorem Lone.reset {first s : Nat} (hl : Lone first s h a) :
    ∃ h' a', a.reset h = some (h', a') ∧ Lone first s h' a' ∧ h'.allocated = h.allocated ∧
      a'.totalAllocated = a.totalAllocated ∧ a'.current = first + dataOffset ∧
      a'.end_ = (first + dataOffset + s) % 2^64 := by
  obtain ⟨⟨hfirst, hsize, hmem, -⟩, hlast⟩ := hl
  have hlinked : Linked h.next a.firstBlock [first] := ⟨hfirst, hlast⟩
  have hchain : h.chain a.firstBlock = some [first] := by
    apply chain_eq hlinked
    intro q hq
    rw [List.mem_singleton.mp hq]
    exact hmem
  have hreset : ∃ r, a.reset h = some r := by
    unfold ArenaAllocator.reset
    rw [hfirst] at hchain ⊢
    dsimp only
    rw [hchain]
    exact ⟨_, rfl⟩
  obtain ⟨⟨h', a'⟩, hr⟩ := hreset
  refine ⟨h', a', hr, ?_⟩
  rcases reset_cases hr with ⟨hnone, -⟩ | ⟨first', hrec⟩
  · cases hfirst.symm.trans hnone
  · have hsame : first' = first := Option.some.inj (hrec.firstBlock.symm.trans hfirst)
    subst hsame
    have harena := hrec.arena
    refine ⟨⟨⟨?_, ?_, ?_, ?_⟩, ?_⟩, hrec.allocated, ?_, ?_, ?_⟩
    · rw [harena]
      exact hfirst
    · rw [hrec.sizes, hsize]
    · rw [hrec.allocated]
      exact hmem
    · intro q hq
      rw [harena] at hq
      cases hq
      rw [hrec.allocated]
      exact hmem
    · rw [hrec.next, hlast]
    · rw [harena]
    · rw [harena]
    · rw [harena, hsize]

theorem Lone.move {first s : Nat} (hl : Lone first s h a) (c : Nat) :
    Lone first s h { a with current := c } := by
  obtain ⟨⟨hfirst, hsize, hmem, hroot⟩, hlast⟩ := hl
  exact ⟨⟨hfirst, hsize, hmem, fun q hq => hroot q hq⟩, hlast⟩

theorem Lone.replayAll {first s : Nat} (hl : Lone first s h a)
    (hal : ∀ r ∈ rs, AlignmentOk ndebug r.alignment)
    (hfit : FitTogether ndebug ((first + dataOffset + s) % 2^64) (first + dataOffset) rs)
    (replays : List (Nat → Nat)) :
    replayAll ndebug rs h a replays = some (List.replicate replays.length
      ⟨bumped (first + dataOffset) rs, h.allocated, a.totalAllocated⟩) := by
  induction replays generalizing h a with
  | nil => rfl
  | cons answers replays ih =>
    obtain ⟨h', a', hreset, hl', hallocated, htotal, hcur, hend⟩ := hl.reset
    have hfit' : FitTogether ndebug a'.end_ a'.current rs := by
      rw [hend, hcur]
      exact hfit
    obtain ⟨c, hall⟩ : ∃ c, allocateAll ndebug h' a' rs answers = some (h', _, _) :=
      allocateAll_fits hal hfit'
    have hrest := ih (hl'.move c)
    dsimp only at hrest
    rw [Memory.replayAll, hreset, Option.bind_some]
    dsimp only
    rw [hall, Option.bind_some]
    dsimp only
    rw [hrest, hcur, hallocated, htotal, Option.map_some, List.length_cons, List.replicate_succ]

theorem replayAll_nil (hnone : a.firstBlock = none) (replays : List (Nat → Nat)) :
    replayAll ndebug [] h a replays =
      some (List.replicate replays.length ⟨[], h.allocated, a.totalAllocated⟩) := by
  have hreset : a.reset h = some (h, a) := by
    unfold ArenaAllocator.reset
    rw [hnone]
  induction replays with
  | nil => rfl
  | cons answers replays ih =>
    rw [Memory.replayAll, hreset, Option.bind_some]
    dsimp only [allocateAll]
    rw [Option.bind_some]
    dsimp only
    rw [ih, Option.map_some, List.length_cons, List.replicate_succ]

/-- A second pass without a new block starts at the beginning of the first block. -/
theorem Founded.fits_of_replayAll {first s : Nat} (hf : Founded first s h a) {replays : List (Nat → Nat)}
    {pass : Pass} {passes : List Pass}
    (hr : replayAll ndebug rs h a (answers :: replays) = some (pass :: passes))
    (hsame : pass.allocated = h.allocated) :
    FitTogether ndebug ((first + dataOffset + s) % 2^64) (first + dataOffset) rs := by
  obtain ⟨⟨h', a'⟩, hreset, hpass⟩ := Option.bind_eq_some_iff.mp hr
  obtain ⟨⟨h'', a'', ps''⟩, hall, hmap⟩ := Option.bind_eq_some_iff.mp hpass
  obtain ⟨passes', -, heq⟩ := Option.map_eq_some_iff.mp hmap
  have hpass := (List.cons.inj heq).1
  rw [← hpass] at hsame
  dsimp only at hall hsame
  rcases reset_cases hreset with ⟨hnone, -⟩ | ⟨first', hrec⟩
  · cases hf.firstBlock.symm.trans hnone
  · have hfirst : first' = first := Option.some.inj (hrec.firstBlock.symm.trans hf.firstBlock)
    subst hfirst
    have harena := hrec.arena
    have hroot : Rooted h' a' := by
      intro q hq
      rw [harena] at hq
      cases hq
      rw [hrec.allocated]
      exact hf.allocated
    have hfit := fitTogether_of_allocateAll hroot hall (by rw [hsame, hrec.allocated])
    rw [harena] at hfit
    dsimp only at hfit
    rwa [hf.size] at hfit

/-- A sequence of requests on a fresh arena can be repeated after `reset()` with the same pointers
and without a new block exactly if it fits into the first block. -/
theorem recycled_iff (ndebug : Bool) (h : Heap) (blockSize : Nat) (rs : List AllocRequest)
    (hrs : ∀ r ∈ rs, 0 < r.size ∧ r.size < 2^64) (answers : Nat → Nat) (h₁ : Heap)
    (a₁ : ArenaAllocator) (ps : List Nat)
    (hfirst : allocateAll ndebug h { blockSize := blockSize } rs answers = some (h₁, a₁, ps))
    (replays : List (Nat → Nat)) (hreplays : replays ≠ []) :
    replayAll ndebug rs h₁ a₁ replays =
        some (List.replicate replays.length ⟨ps, h₁.allocated, a₁.totalAllocated⟩) ↔
      FitFirstBlock ndebug blockSize (answers 0) rs := by
  have hal := alignment_of_allocateAll hfirst
  cases rs with
  | nil =>
    cases hfirst
    exact ⟨fun _ => trivial, fun _ => replayAll_nil rfl replays⟩
  | cons r rs =>
    obtain ⟨hpos, hlt⟩ := hrs r List.mem_cons_self
    obtain ⟨⟨h', a', p⟩, hone, hrest⟩ := Option.bind_eq_some_iff.mp hfirst
    obtain ⟨⟨h'', a'', ps'⟩, hall, heq⟩ := Option.map_eq_some_iff.mp hrest
    cases heq
    obtain ⟨hg, hf⟩ := founded_of_fresh hpos hlt hone
    constructor
    · intro hreplay
      obtain ⟨answers', replays', rfl⟩ := List.exists_cons_of_ne_nil hreplays
      exact (hf.allocateAll hall).fits_of_replayAll hreplay rfl
    · intro hfit
      have hfit : FitTogether ndebug _ _ (r :: rs) := hfit
      have hnext : a'.current = (alignAddress (answers 0 + dataOffset) r.alignment + r.size) % 2^64 := by
        rw [hg.current, hg.pointer]
      have hend := hg.end_
      unfold newSize at hend
      have hrest : FitTogether ndebug a'.end_ a'.current rs := by
        rw [hnext, hend]
        exact hfit.2.2
      have hlone : Lone (answers 0) _ h' a' := ⟨hf, by rw [Heap.next, hg.newBlock]⟩
      obtain ⟨c, hfast⟩ : ∃ c, allocateAll ndebug h' a' rs (fun k => answers (k + 1)) =
          some (h', { a' with current := c }, _) :=
        allocateAll_fits (fun x hx => hal x (List.mem_cons_of_mem _ hx)) hrest
      obtain ⟨hh, harest⟩ := Prod.mk.inj (Option.some.inj (hall.symm.trans hfast))
      obtain ⟨ha, hps⟩ := Prod.mk.inj harest
      have hpointers : p :: ps' = bumped (answers 0 + dataOffset) (r :: rs) := by
        rw [bumped, hps, hg.pointer, hnext]
      rw [hpointers, hh, ha]
      exact (hlone.move c).replayAll hal hfit replays

/-- A block of 128 bytes takes both requests, in three more passes. -/
theorem recycled_iff_oneBlock :
    ∃ h a, allocateAll false World.initial.heap { blockSize := 128 } [⟨40, 16⟩, ⟨60, 8⟩]
        (fun _ => 4096) = some (h, a, [4128, 4168]) ∧
      replayAll false [⟨40, 16⟩, ⟨60, 8⟩] h a (List.replicate 3 fun _ => 8192) =
        some (List.replicate 3 ⟨[4128, 4168], h.allocated, a.totalAllocated⟩) := by
  have hrun : (allocateAll false World.initial.heap { blockSize := 128 } [⟨40, 16⟩, ⟨60, 8⟩]
      (fun _ => 4096)).map (fun r => r.2.2) = some [4128, 4168] := by
    decide +kernel
  obtain ⟨⟨h, a, ps⟩, hfirst, hps⟩ := Option.map_eq_some_iff.mp hrun
  dsimp only at hps
  subst hps
  refine ⟨h, a, hfirst, ?_⟩
  exact (recycled_iff false World.initial.heap 128 [⟨40, 16⟩, ⟨60, 8⟩] (by decide) (fun _ => 4096) h
    a _ hfirst (List.replicate 3 fun _ => 8192) (by simp)).mpr (by decide +kernel)

/-- The second of two blocks is not found again: a third one takes its place in the chain. -/
theorem overflow_not_recycled :
    ((allocateAll false World.initial.heap { blockSize := 64 } [⟨40, 16⟩, ⟨40, 16⟩]
        fun k => 4096 * (k + 1)).bind fun (h, a, ps) =>
      (replayAll false [⟨40, 16⟩, ⟨40, 16⟩] h a [fun _ => 12288]).map fun passes =>
        ((⟨ps, h.allocated, a.totalAllocated⟩ : Pass), passes)) =
      some (⟨[4128, 8224], [⟨4096, 111⟩, ⟨8192, 111⟩], 128⟩,
        [⟨[4128, 12320], [⟨4096, 111⟩, ⟨8192, 111⟩, ⟨12288, 111⟩], 192⟩]) := by
  decide +kernel

end Jellybean.Memory
