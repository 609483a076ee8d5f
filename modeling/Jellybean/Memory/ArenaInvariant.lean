import Jellybean.Framework.Custody
import Jellybean.Memory.Arena

namespace Jellybean.Memory

variable {h h' : Heap} {a a' : ArenaAllocator} {o blocks : List Nat} {l : List Range}
  {size alignment ptr p : Nat}

/-! Allocation. -/

/-- The request fits behind `current_`. -/
def Fits (a : ArenaAllocator) (size alignment : Nat) : Prop :=
  (alignAddress a.current alignment + size) % 2^64 ≤ a.end_

theorem allocate_cases {ndebug : Bool} {r : Heap × ArenaAllocator × Nat}
    (hr : a.allocate ndebug h size alignment ptr = some r) :
    (Fits a size alignment ∧ r = (h, { a with
        current := (alignAddress a.current alignment + size) % 2^64 },
        alignAddress a.current alignment)) ∨
      (¬ Fits a size alignment ∧ a.allocateSlow h size alignment ptr = some r) := by
  unfold ArenaAllocator.allocate at hr
  dsimp only at hr
  split_ifs at hr with h1 h2 h3 h4 h5
  · left
    exact ⟨h5, (Option.some.inj hr).symm⟩
  · right
    exact ⟨h5, hr⟩

/-- The assertions on the alignment. -/
def AlignmentOk (ndebug : Bool) (alignment : Nat) : Prop :=
  fails ndebug (alignment ≠ 0) = false ∧ fails ndebug (alignment &&& (alignment - 1) = 0) = false

theorem allocate_asserts {ndebug : Bool} {r : Heap × ArenaAllocator × Nat}
    (hr : a.allocate ndebug h size alignment ptr = some r) :
    AlignmentOk ndebug alignment ∧ (ndebug = false →
      a.current ≤ alignAddress a.current alignment ∧
        alignAddress a.current alignment ≤ (alignAddress a.current alignment + size) % 2^64) := by
  unfold ArenaAllocator.allocate at hr
  dsimp only at hr
  split_ifs at hr with h1 h2 h3 h4 h5
  all_goals
    rw [Bool.not_eq_true] at h1 h2 h3 h4
    refine ⟨⟨h1, h2⟩, ?_⟩
    rintro rfl
    simp only [fails, Bool.not_false, Bool.true_and, Bool.not_eq_false', decide_eq_true_eq] at h3 h4
    exact ⟨h3, h4⟩

/-- A call that passes the assertions only tests for room. -/
theorem allocate_of_asserts {ndebug : Bool} (hal : AlignmentOk ndebug alignment)
    (hassert : ndebug = false → a.current ≤ alignAddress a.current alignment ∧
      alignAddress a.current alignment ≤ (alignAddress a.current alignment + size) % 2^64) :
    a.allocate ndebug h size alignment ptr =
      if (alignAddress a.current alignment + size) % 2^64 ≤ a.end_ then
        some (h, { a with current := (alignAddress a.current alignment + size) % 2^64 },
          alignAddress a.current alignment)
      else a.allocateSlow h size alignment ptr := by
  obtain ⟨h1, h2⟩ := hal
  unfold ArenaAllocator.allocate
  dsimp only
  rw [h1, h2, if_neg Bool.false_ne_true, if_neg Bool.false_ne_true, if_neg, if_neg]
  · cases ndebug with
    | true => simp [fails]
    | false => simpa [fails] using (hassert rfl).2
  · cases ndebug with
    | true => simp [fails]
    | false => simpa [fails] using (hassert rfl).1

theorem allocate_fast {ndebug : Bool} (hal : AlignmentOk ndebug alignment)
    (hassert : ndebug = false → a.current ≤ alignAddress a.current alignment ∧
      alignAddress a.current alignment ≤ (alignAddress a.current alignment + size) % 2^64)
    (hfit : Fits a size alignment) :
    a.allocate ndebug h size alignment ptr = some (h,
      { a with current := (alignAddress a.current alignment + size) % 2^64 },
      alignAddress a.current alignment) :=
  (allocate_of_asserts hal hassert).trans (if_pos hfit)

theorem alignAddress_zero (alignment : Nat) : alignAddress 0 alignment = 0 := by
  unfold alignAddress
  rw [Nat.zero_add]
  have hlt : (alignment + (2^64 - 1)) % 2^64 < 2^64 := Nat.mod_lt _ (by decide)
  generalize (alignment + (2^64 - 1)) % 2^64 = x at hlt ⊢
  apply Nat.eq_of_testBit_eq
  intro i
  rw [Nat.testBit_and, Nat.sub_sub, Nat.add_comm 1 x, Nat.testBit_two_pow_sub_succ hlt,
    Nat.zero_testBit]
  cases hx : x.testBit i with
  | false => rfl
  | true => simp

/-- The size of the block that a request leads to. -/
def newSize (a : ArenaAllocator) (size alignment : Nat) : Nat :=
  max a.blockSize ((size + alignment) % 2^64)

/-- The bytes asked of `malloc` for a block. -/
def blockBytes (size : Nat) : Nat := (sizeofBlock + size - 1) % 2^64

/-- The effect of the slow path: a new block at `ptr` follows the old head. -/
structure Grown (h : Heap) (a : ArenaAllocator) (size alignment ptr : Nat) (h' : Heap)
    (a' : ArenaAllocator) (p : Nat) : Prop where
  nonnull : ptr ≠ 0
  bound : ptr + blockBytes (newSize a size alignment) ≤ 2^64
  fresh : ∀ r ∈ h.allocated, r.base ≠ ptr ∧
    r.Disjoint ⟨ptr, blockBytes (newSize a size alignment)⟩
  allocated : h'.allocated = h.allocated ++ [⟨ptr, blockBytes (newSize a size alignment)⟩]
  newBlock : h'.block ptr = ⟨none, newSize a size alignment, 0⟩
  sizes : ∀ q, q ≠ ptr → (h'.block q).size = (h.block q).size
  others : ∀ q, q ≠ ptr → a.head ≠ some q → h'.block q = h.block q
  recorded : ∀ q, a.head = some q →
    (h'.block q).used = (a.current + 2^64 - (q + dataOffset)) % 2^64
  link : ∀ q, a.firstBlock ≠ none → a.head = some q → h'.next q = some ptr
  head : a'.head = some ptr
  firstBlock : a'.firstBlock = some (a.firstBlock.getD ptr)
  headSome : a.firstBlock ≠ none → a.head ≠ none
  total : a'.totalAllocated = (a.totalAllocated + newSize a size alignment) % 2^64
  pointer : p = alignAddress (ptr + dataOffset) alignment
  current : a'.current = (p + size) % 2^64
  end_ : a'.end_ = (ptr + dataOffset + newSize a size alignment) % 2^64

theorem malloc_spec {bytes : Nat} (hm : h.malloc bytes ptr = some h') :
    ptr ≠ 0 ∧ ptr + bytes ≤ 2^64 ∧ (∀ r ∈ h.allocated, r.base ≠ ptr ∧ r.Disjoint ⟨ptr, bytes⟩) ∧
      h' = { h with allocated := h.allocated ++ [⟨ptr, bytes⟩] } := by
  unfold Heap.malloc at hm
  split_ifs at hm with hok
  obtain ⟨h1, h2, h3⟩ := hok
  exact ⟨h1, h2, h3, (Option.some.inj hm).symm⟩

@[simp] theorem setBlock_allocated (q : Nat) (b : Block) :
    (h.setBlock q b).allocated = h.allocated := rfl

@[simp] theorem setBlock_self (q : Nat) (b : Block) : (h.setBlock q b).block q = b :=
  Function.update_self ..

theorem setBlock_ne {q q' : Nat} (b : Block) (hne : q' ≠ q) :
    (h.setBlock q b).block q' = h.block q' := Function.update_of_ne hne ..

theorem recordUsed_allocated : (a.recordUsed h).allocated = h.allocated := by
  unfold ArenaAllocator.recordUsed
  split <;> rfl

theorem recordUsed_size (q : Nat) : ((a.recordUsed h).block q).size = (h.block q).size := by
  unfold ArenaAllocator.recordUsed
  split
  · next head _ =>
    by_cases hq : q = head
    · rw [hq, setBlock_self]
    · rw [setBlock_ne _ hq]
  · rfl

theorem recordUsed_of_ne {q : Nat} (hq : a.head ≠ some q) :
    (a.recordUsed h).block q = h.block q := by
  unfold ArenaAllocator.recordUsed
  split
  · next head hh =>
    apply setBlock_ne
    rintro rfl
    exact hq hh
  · rfl

theorem recordUsed_head {q : Nat} (hq : a.head = some q) :
    ((a.recordUsed h).block q).used = (a.current + 2^64 - (q + dataOffset)) % 2^64 := by
  unfold ArenaAllocator.recordUsed
  rw [hq]
  dsimp only
  rw [setBlock_self]

theorem grown_of_allocateSlow (hhead : ∀ q, a.head = some q → q ∈ h.allocated.map Region.base)
    (hr : a.allocateSlow h size alignment ptr = some (h', a', p)) :
    Grown h a size alignment ptr h' a' p := by
  unfold ArenaAllocator.allocateSlow ArenaAllocator.allocateBlock at hr
  obtain ⟨⟨h₂, a₂⟩, hblock, heq⟩ := Option.map_eq_some_iff.mp hr
  obtain ⟨h₁, hm, hlink⟩ := Option.bind_eq_some_iff.mp hblock
  obtain ⟨hnull, hbound, hfresh, rfl⟩ := malloc_spec hm
  rw [recordUsed_allocated] at hfresh
  simp only [Prod.mk.injEq] at heq
  obtain ⟨rfl, rfl, rfl⟩ := heq
  have hne : ∀ q, a.head = some q → q ≠ ptr := by
    rintro q hq rfl
    obtain ⟨r, hr, hb⟩ := List.mem_map.mp (hhead q hq)
    exact (hfresh r hr).1 hb
  dsimp only at hlink
  split at hlink
  · next hf =>
    cases hlink
    refine ⟨hnull, hbound, hfresh, ?_, setBlock_self .., ?_, ?_, ?_, ?_, rfl, ?_, ?_, rfl, rfl, rfl,
      ?_⟩
    · rw [setBlock_allocated, recordUsed_allocated]
      rfl
    · intro q hq
      rw [setBlock_ne _ hq]
      exact recordUsed_size q
    · intro q hq hh
      rw [setBlock_ne _ hq]
      exact recordUsed_of_ne hh
    · intro q hq
      rw [setBlock_ne _ (hne q hq)]
      exact recordUsed_head hq
    · intro q hq
      exact absurd hf hq
    · rw [hf]
      rfl
    · intro hq
      exact absurd hf hq
    · rw [setBlock_self]
      rfl
  · next first head hf hh =>
    cases hlink
    have hhp := hne head hh
    refine ⟨hnull, hbound, hfresh, ?_, ?_, ?_, ?_, ?_, ?_, rfl, ?_, ?_, rfl, rfl, rfl, ?_⟩
    · rw [setBlock_allocated, setBlock_allocated, recordUsed_allocated]
      rfl
    · rw [setBlock_ne _ hhp.symm, setBlock_self]
      rfl
    · intro q hq
      by_cases hqh : q = head
      · rw [hqh, setBlock_self, setBlock_ne _ hhp]
        exact recordUsed_size head
      · rw [setBlock_ne _ hqh, setBlock_ne _ hq]
        exact recordUsed_size q
    · intro q hq hqh
      have hqh' : q ≠ head := by
        rintro rfl
        exact hqh hh
      rw [setBlock_ne _ hqh', setBlock_ne _ hq]
      exact recordUsed_of_ne hqh
    · intro q hq
      cases hh.symm.trans hq
      rw [setBlock_self, setBlock_ne _ hhp]
      exact recordUsed_head hh
    · intro q _ hq
      cases hh.symm.trans hq
      simp only [Heap.next, setBlock_self]
    · rw [hf]
      rfl
    · intro _
      rw [hh]
      simp
    · rw [setBlock_ne _ hhp.symm, setBlock_self]
      rfl
  · cases hlink

/-! Loops along the chain. -/

theorem foldlM_free (hf : blocks.foldlM Heap.free h = some h') :
    h'.block = h.block ∧ h'.allocated = h.allocated.filter (·.base ∉ blocks) := by
  induction blocks generalizing h with
  | nil =>
    cases hf
    simp
  | cons q qs ih =>
    rw [List.foldlM_cons] at hf
    obtain ⟨h₁, h1, hrest⟩ := Option.bind_eq_some_iff.mp hf
    unfold Heap.free at h1
    split_ifs at h1
    cases h1
    obtain ⟨hb, ha⟩ := ih hrest
    refine ⟨hb, ?_⟩
    rw [ha, List.filter_filter]
    apply List.filter_congr
    intro r _
    simp [Bool.and_comm]

theorem foldlM_free_isSome (hn : blocks.Nodup)
    (hb : ∀ q ∈ blocks, q ∈ h.allocated.map Region.base) :
    (blocks.foldlM Heap.free h).isSome := by
  induction blocks generalizing h with
  | nil => rfl
  | cons q qs ih =>
    obtain ⟨hq, hqs⟩ := List.nodup_cons.mp hn
    have hfree : h.free q = some { h with allocated := h.allocated.filter (·.base ≠ q) } :=
      if_pos (hb q (by simp))
    rw [List.foldlM_cons, hfree]
    apply ih hqs
    intro x hx
    obtain ⟨r, hr, rfl⟩ := List.mem_map.mp (hb x (by simp [hx]))
    apply List.mem_map_of_mem
    apply List.mem_filter.mpr
    refine ⟨hr, ?_⟩
    simp only [ne_eq, decide_not, Bool.not_eq_true', decide_eq_false_iff_not]
    rintro rfl
    exact hq hx

theorem freeChain_spec {first : Option Nat} {c : List Nat} (hc : Linked h.next first c)
    (hf : h.freeChain first = some h') :
    h'.block = h.block ∧ h'.allocated = h.allocated.filter (·.base ∉ c) := by
  obtain ⟨blocks, hb, hfold⟩ := Option.bind_eq_some_iff.mp hf
  cases (linked_of_traverse hb).unique hc
  exact foldlM_free hfold

/-- The loop comes to the null pointer: a chain of allocated blocks is no longer than `allocated`. -/
theorem chain_eq {first : Option Nat} {c : List Nat} (hc : Linked h.next first c)
    (ha : ∀ q ∈ c, q ∈ h.allocated.map Region.base) : h.chain first = some c := by
  apply hc.traverse_eq
  have hle := (List.subperm_of_subset hc.nodup ha).length_le
  rwa [List.length_map] at hle

theorem freeChain_isSome {first : Option Nat} {c : List Nat} (hc : Linked h.next first c)
    (ha : ∀ q ∈ c, q ∈ h.allocated.map Region.base) : (h.freeChain first).isSome := by
  unfold Heap.freeChain
  rw [chain_eq hc ha]
  exact foldlM_free_isSome hc.nodup ha

/-- The effect of `reset` on an arena that has blocks. -/
structure Recycled (h : Heap) (a : ArenaAllocator) (first : Nat) (h' : Heap) (a' : ArenaAllocator) :
    Prop where
  firstBlock : a.firstBlock = some first
  allocated : h'.allocated = h.allocated
  sizes : ∀ q, (h'.block q).size = (h.block q).size
  next : ∀ q, h'.next q = h.next q
  others : ∀ c, Linked h.next a.firstBlock c → ∀ q, q ∉ c → h'.block q = h.block q
  used : ∀ c, Linked h.next a.firstBlock c → ∀ q ∈ c, (h'.block q).used = 0
  arena : a' = { a with
    head := some first
    current := first + dataOffset
    end_ := (first + dataOffset + (h.block first).size) % 2^64 }

theorem reset_cases (hr : a.reset h = some (h', a')) :
    (a.firstBlock = none ∧ h' = h ∧ a' = a) ∨ ∃ first, Recycled h a first h' a' := by
  unfold ArenaAllocator.reset at hr
  split at hr
  · next hf =>
    cases hr
    exact .inl ⟨hf, rfl, rfl⟩
  · next first hf =>
    obtain ⟨blocks, hb, heq⟩ := Option.map_eq_some_iff.mp hr
    cases heq
    right
    refine ⟨first, hf, rfl, ?_, ?_, ?_, ?_, rfl⟩
    · intro q
      dsimp only
      split <;> rfl
    · intro q
      simp only [Heap.next]
      split <;> rfl
    · intro c hc q hq
      cases (linked_of_traverse hb).unique hc
      exact if_neg hq
    · intro c hc q hq
      cases (linked_of_traverse hb).unique hc
      dsimp only
      rw [if_pos hq]

/-! Invariants of one arena. Such a predicate speaks about the headers and the regions of the
blocks it owns only, so that it survives what other arenas do. -/

/-- The heaps agree on the blocks in `o`. -/
structure Agree (h h' : Heap) (o : List Nat) : Prop where
  block : ∀ q ∈ o, h'.block q = h.block q
  allocated : ∀ r ∈ h.allocated, r.base ∈ o → r ∈ h'.allocated

/-- The blocks reachable from `first_block_` belong to the arena, `head_` is one of them. -/
structure Chained (h : Heap) (o : List Nat) (a : ArenaAllocator) : Prop where
  owned : ∀ q ∈ o, q ∈ h.allocated.map Region.base
  chain : ∃ c, Linked h.next a.firstBlock c ∧ (∀ q ∈ c, q ∈ o) ∧ ∀ q, a.head = some q → q ∈ c
  headSome : a.firstBlock ≠ none → a.head ≠ none

/-- `P` is an invariant of every arena as long as its allocations satisfy `C`. -/
structure Kept (C : Heap → ArenaAllocator → Nat → Nat → Prop)
    (P : Heap → List Nat → List Range → ArenaAllocator → Prop) : Prop where
  chained : ∀ {h o l a}, P h o l a → Chained h o a
  frame : ∀ {h h' o l a}, P h o l a → Agree h h' o → P h' o l a
  empty : ∀ {h} (blockSize : Nat), P h [] [] { blockSize := blockSize }
  bump : ∀ {h o l a size alignment}, P h o l a → C h a size alignment → Fits a size alignment →
    P h o (l ++ [⟨⟨alignAddress a.current alignment, size⟩, alignment⟩])
      { a with current := (alignAddress a.current alignment + size) % 2^64 }
  grow : ∀ {h o l a size alignment ptr h' a' p}, P h o l a → C h a size alignment →
    ¬ Fits a size alignment → Grown h a size alignment ptr h' a' p →
    P h' (o ++ [ptr]) (l ++ [⟨⟨p, size⟩, alignment⟩]) a'
  forget : ∀ {h o l a}, P h o l a → P h o [] a
  recycle : ∀ {h o l a first h' a'}, P h o l a → Recycled h a first h' a' → P h' o [] a'

theorem Agree.refl (h : Heap) (o : List Nat) : Agree h h o := ⟨fun _ _ => rfl, fun _ hr _ => hr⟩

theorem Agree.next {q : Nat} (hag : Agree h h' o) (hq : q ∈ o) : h'.next q = h.next q := by
  unfold Heap.next
  rw [hag.block q hq]

theorem Agree.mem_base {q : Nat} (hag : Agree h h' o) (hq : q ∈ o)
    (hm : q ∈ h.allocated.map Region.base) : q ∈ h'.allocated.map Region.base := by
  obtain ⟨r, hr, rfl⟩ := List.mem_map.mp hm
  exact List.mem_map_of_mem (hag.allocated r hr hq)

theorem Chained.frame (hch : Chained h o a) (hag : Agree h h' o) : Chained h' o a := by
  obtain ⟨c, hc, hco, hhead⟩ := hch.chain
  refine ⟨?_, ⟨c, ?_, hco, hhead⟩, hch.headSome⟩
  · intro q hq
    exact hag.mem_base hq (hch.owned q hq)
  · apply hc.congr
    intro q hq
    exact hag.next (hco q hq)

theorem Chained.empty (blockSize : Nat) : Chained h [] { blockSize := blockSize } := by
  refine ⟨by simp, ⟨[], rfl, by simp, ?_⟩, fun hf => absurd rfl hf⟩
  intro q hq
  cases hq

theorem Chained.head_mem (hch : Chained h o a) {q : Nat} (hq : a.head = some q) :
    q ∈ h.allocated.map Region.base := by
  obtain ⟨c, -, hco, hhead⟩ := hch.chain
  exact hch.owned q (hco q (hhead q hq))

/-- The first block of an arena. -/
theorem Grown.chain_nil (hg : Grown h a size alignment ptr h' a' p) (hf : a.firstBlock = none) :
    Linked h'.next a'.firstBlock [ptr] := by
  rw [hg.firstBlock, hf]
  refine ⟨rfl, ?_⟩
  simp only [Linked, Heap.next, hg.newBlock]

/-- What follows the old head is replaced by the new block. -/
theorem Grown.chain_append (hg : Grown h a size alignment ptr h' a' p) {as bs : List Nat} {q : Nat}
    (hc : Linked h.next a.firstBlock (as ++ q :: bs)) (hfresh : ptr ∉ as ++ q :: bs)
    (hq : a.head = some q) : Linked h'.next a'.firstBlock (as ++ [q, ptr]) := by
  obtain ⟨first, hf⟩ : ∃ first, a.firstBlock = some first := by
    rw [hc.head_eq, ← Option.isSome_iff_exists]
    simp
  have hsome : a.firstBlock ≠ none := by
    rw [hf]
    exact Option.some_ne_none first
  rw [hg.firstBlock, hf]
  rw [hf] at hc
  apply hc.splice
  · intro y hy
    have hyq : a.head ≠ some y := by
      intro hy'
      cases hq.symm.trans hy'
      have hnd := hc.nodup
      rw [List.nodup_append] at hnd
      exact hnd.2.2 q hy q (by simp) rfl
    have hyp : y ≠ ptr := by
      rintro rfl
      exact hfresh (by simp [hy])
    unfold Heap.next
    rw [hg.others y hyp hyq]
  · rw [hg.link q hsome hq]
    refine ⟨rfl, ?_⟩
    simp only [Linked, Heap.next, hg.newBlock]

theorem Grown.chain (hg : Grown h a size alignment ptr h' a' p) {c : List Nat}
    (hc : Linked h.next a.firstBlock c) (hfresh : ptr ∉ c) (hhead : ∀ q, a.head = some q → q ∈ c) :
    ∃ as, Linked h'.next a'.firstBlock (as ++ [ptr]) ∧
      ∃ bs, c = as ++ bs ∧ ∀ q, a.head = some q → bs.head? = h.next q := by
  cases hf : a.firstBlock with
  | none =>
    refine ⟨[], hg.chain_nil hf, c, rfl, ?_⟩
    intro q hq
    rw [hf] at hc
    have hmem := hhead q hq
    rw [hc.eq_nil] at hmem
    cases hmem
  | some first =>
    have hsome : a.firstBlock ≠ none := by
      rw [hf]
      exact Option.some_ne_none first
    obtain ⟨q, hq⟩ := Option.ne_none_iff_exists'.mp (hg.headSome hsome)
    obtain ⟨as, bs, rfl⟩ := List.append_of_mem (hhead q hq)
    refine ⟨as ++ [q], ?_, bs, by simp, ?_⟩
    · rw [List.append_assoc]
      exact hg.chain_append hc hfresh hq
    · intro q' hq'
      cases hq.symm.trans hq'
      have hsuff := hc.suffix (show q :: bs <:+ as ++ q :: bs from ⟨as, rfl⟩)
      exact hsuff.2.head_eq.symm

theorem Grown.not_mem (hg : Grown h a size alignment ptr h' a' p)
    (ho : ∀ q ∈ o, q ∈ h.allocated.map Region.base) : ptr ∉ o := by
  intro hp
  obtain ⟨r, hr, hb⟩ := List.mem_map.mp (ho ptr hp)
  exact (hg.fresh r hr).1 hb

theorem Chained.grow (hch : Chained h o a) (hg : Grown h a size alignment ptr h' a' p) :
    Chained h' (o ++ [ptr]) a' := by
  obtain ⟨c, hc, hco, hhead⟩ := hch.chain
  have hfresh : ptr ∉ c := fun hp => hg.not_mem hch.owned (hco ptr hp)
  obtain ⟨as, hlink, bs, rfl, -⟩ := hg.chain hc hfresh hhead
  refine ⟨?_, ⟨as ++ [ptr], hlink, ?_, ?_⟩, ?_⟩
  · intro q hq
    rw [hg.allocated, List.map_append, List.mem_append]
    rcases List.mem_append.mp hq with hq | hq
    · exact .inl (hch.owned q hq)
    · exact .inr hq
  · intro q hq
    rcases List.mem_append.mp hq with hq | hq
    · exact List.mem_append_left _ (hco q (List.mem_append_left _ hq))
    · exact List.mem_append_right _ hq
  · intro q hq
    cases hg.head.symm.trans hq
    simp
  · intro _
    rw [hg.head]
    simp

theorem Chained.recycle {first : Nat} (hch : Chained h o a) (hr : Recycled h a first h' a') :
    Chained h' o a' := by
  obtain ⟨c, hc, hco, -⟩ := hch.chain
  obtain ⟨hf, ha, -, hn, -, -, rfl⟩ := hr
  have hc' : Linked h'.next a.firstBlock c := hc.congr fun q _ => hn q
  refine ⟨?_, ⟨c, hc', hco, ?_⟩, by simp⟩
  · rw [ha]
    exact hch.owned
  · intro q hq
    cases hq
    apply List.mem_of_mem_head?
    rw [← hc.head_eq, hf]
    rfl

/-! All arenas. -/

/-- Regions do not overlap, and no block has two owners. -/
structure Separate (w : World) : Prop where
  regions : w.heap.allocated.Pairwise fun r s => r.base ≠ s.base ∧ r.Disjoint s
  absent : ∀ i, w.arenas i = none → w.owned i = [] ∧ w.live i = []
  apart : ∀ i j, i ≠ j → ∀ q ∈ w.owned i, q ∉ w.owned j

def Each (P : Heap → List Nat → List Range → ArenaAllocator → Prop) (w : World) : Prop :=
  ∀ i a, w.arenas i = some a → P w.heap (w.owned i) (w.live i) a

/-- The request made by an action satisfies `C`. -/
def Admits (C : Heap → ArenaAllocator → Nat → Nat → Prop) (w : World) : Action → Prop
  | .allocate i size alignment _ | .construct i size alignment _ =>
    ∀ a, w.arenas i = some a → C w.heap a size alignment
  | _ => True

variable {C : Heap → ArenaAllocator → Nat → Nat → Prop}
  {P : Heap → List Nat → List Range → ArenaAllocator → Prop} {w t : World} {i j : Nat}

instance decidableAdmits [∀ h a size alignment, Decidable (C h a size alignment)] (w : World) :
    (x : Action) → Decidable (Admits C w x)
  | .allocate i size alignment _ | .construct i size alignment _ =>
    inferInstanceAs (Decidable (∀ a ∈ w.arenas i, C w.heap a size alignment))
  | .create .. | .reset _ | .moveConstruct .. | .moveAssign .. | .destroy _ => .isTrue trivial

/-- One arena acts: the others keep what they own. -/
theorem Each.update (K : Kept C P) (hw : Each P w)
    (hag : ∀ j a, j ≠ i → w.arenas j = some a → Agree w.heap t.heap (w.owned j))
    (hj : ∀ j, j ≠ i → t.arenas j = w.arenas j ∧ t.owned j = w.owned j ∧ t.live j = w.live j)
    (hi : ∀ a, t.arenas i = some a → P t.heap (t.owned i) (t.live i) a) : Each P t := by
  intro j a ha
  by_cases hji : j = i
  · subst hji
    exact hi a ha
  · obtain ⟨h1, h2, h3⟩ := hj j hji
    rw [h1] at ha
    rw [h2, h3]
    exact K.frame (hw j a ha) (hag j a hji ha)

theorem Separate.ownedApart (hs : Separate w) : Apart fun j q => q ∈ w.owned j := by
  intro j k q hjk
  exact hs.apart j k hjk q

theorem Separate.update (hs : Separate w)
    (hr : t.heap.allocated.Pairwise fun r s => r.base ≠ s.base ∧ r.Disjoint s)
    (hj : ∀ j, j ≠ i → t.arenas j = w.arenas j ∧ t.owned j = w.owned j ∧ t.live j = w.live j)
    (hi : t.arenas i = none → t.owned i = [] ∧ t.live i = [])
    (ho : ∀ j, j ≠ i → ∀ q ∈ t.owned i, q ∉ w.owned j) : Separate t := by
  refine ⟨hr, ?_, ?_⟩
  · intro j hn
    by_cases hji : j = i
    · exact hji ▸ hi (hji ▸ hn)
    · obtain ⟨h1, h2, h3⟩ := hj j hji
      rw [h2, h3]
      exact hs.absent j (h1 ▸ hn)
  · have hapart : Apart fun j q => q ∈ t.owned j := by
      apply hs.ownedApart.update (i := i)
      · intro j q hji hq
        rwa [(hj j hji).2.1] at hq
      · intro j q hji hq
        exact ho j hji q hq
    intro j k hjk q
    exact hapart j k q hjk

theorem Separate.owned_ne_nil (hs : Separate w) {q : Nat} (hq : q ∈ w.owned i) :
    ∃ a, w.arenas i = some a := by
  cases ha : w.arenas i with
  | none =>
    rw [(hs.absent i ha).1] at hq
    cases hq
  | some a => exact ⟨a, rfl⟩

/-- A block that an allocation obtained is new to all arenas. -/
theorem Grown.new (hs : Separate w) (hw : ∀ i a, w.arenas i = some a → Chained w.heap (w.owned i) a)
    (hg : Grown w.heap a size alignment ptr h' a' p) : ptr ∉ w.owned j := by
  intro hp
  obtain ⟨b, hb⟩ := hs.owned_ne_nil hp
  exact hg.not_mem (hw j b hb).owned hp

theorem Grown.agree (hs : Separate w)
    (hw : ∀ i a, w.arenas i = some a → Chained w.heap (w.owned i) a) (ha : w.arenas i = some a)
    (hg : Grown w.heap a size alignment ptr h' a' p) (hji : j ≠ i) :
    Agree w.heap h' (w.owned j) := by
  refine ⟨?_, ?_⟩
  · intro q hq
    apply hg.others
    · rintro rfl
      exact hg.new hs hw hq
    · intro hhead
      obtain ⟨c, -, hco, hc⟩ := (hw i a ha).chain
      exact hs.apart j i hji q hq (hco q (hc q hhead))
  · intro r hr _
    rw [hg.allocated]
    exact List.mem_append_left _ hr

/-- Freeing the chain of one arena. -/
theorem freeChain_agree (hs : Separate w) (hch : Chained w.heap (w.owned i) a)
    (hf : w.heap.freeChain a.firstBlock = some h') (hji : j ≠ i) :
    Agree w.heap h' (w.owned j) := by
  obtain ⟨c, hc, hco, -⟩ := hch.chain
  obtain ⟨hb, hal⟩ := freeChain_spec hc hf
  refine ⟨fun q _ => by rw [hb], ?_⟩
  intro r hr hrj
  rw [hal]
  apply List.mem_filter.mpr
  refine ⟨hr, ?_⟩
  simp only [decide_eq_true_eq]
  intro hrc
  exact hs.apart j i hji _ hrj (hco _ hrc)

theorem Each.chained (K : Kept C P) (hw : Each P w) :
    ∀ i a, w.arenas i = some a → Chained w.heap (w.owned i) a :=
  fun i a ha => K.chained (hw i a ha)

theorem returned_other (w : World) (size alignment : Nat) (r : Heap × ArenaAllocator × Nat)
    (hji : j ≠ i) :
    (w.returned i size alignment r).arenas j = w.arenas j ∧
      (w.returned i size alignment r).owned j = w.owned j ∧
      (w.returned i size alignment r).live j = w.live j := by
  simp [World.returned, hji]

theorem Each.allocate (K : Kept C P) (hs : Separate w) (hw : Each P w) (ha : w.arenas i = some a)
    (hC : C w.heap a size alignment) {ndebug : Bool} {r : Heap × ArenaAllocator × Nat}
    (hr : a.allocate ndebug w.heap size alignment ptr = some r) :
    Each P (w.returned i size alignment r) := by
  have hch := hw.chained K
  rcases allocate_cases hr with ⟨hfit, rfl⟩ | ⟨hfit, hslow⟩
  · refine hw.update K (i := i) (fun _ _ _ _ => Agree.refl _ _) (fun j hji => returned_other w _ _ _ hji) ?_
    intro b hb
    simp only [World.returned, Function.update_self, List.drop_length, List.map_nil,
      List.append_nil, Option.some.injEq] at hb ⊢
    subst hb
    exact K.bump (hw i a ha) hC hfit
  · obtain ⟨h', a', p⟩ := r
    have hg := grown_of_allocateSlow (fun q hq => (hch i a ha).head_mem hq) hslow
    refine hw.update K (i := i) (fun j _ hji _ => hg.agree hs hch ha hji)
      (fun j hji => returned_other w _ _ _ hji) ?_
    intro b hb
    simp only [World.returned, Function.update_self, hg.allocated, List.drop_left, List.map_cons,
      List.map_nil, Option.some.injEq] at hb ⊢
    subst hb
    exact K.grow (hw i a ha) hC hfit hg

theorem Grown.regions (hg : Grown h a size alignment ptr h' a' p)
    (hr : h.allocated.Pairwise fun r s => r.base ≠ s.base ∧ r.Disjoint s) :
    h'.allocated.Pairwise fun r s => r.base ≠ s.base ∧ r.Disjoint s := by
  rw [hg.allocated, List.pairwise_append]
  refine ⟨hr, List.pairwise_singleton _ _, ?_⟩
  intro r hr s hs
  rw [List.mem_singleton.mp hs]
  exact hg.fresh r hr

theorem Separate.allocate (hs : Separate w)
    (hw : ∀ i a, w.arenas i = some a → Chained w.heap (w.owned i) a) (ha : w.arenas i = some a)
    {ndebug : Bool} {r : Heap × ArenaAllocator × Nat}
    (hr : a.allocate ndebug w.heap size alignment ptr = some r) :
    Separate (w.returned i size alignment r) := by
  have hsome : (w.returned i size alignment r).arenas i ≠ none := by simp [World.returned]
  rcases allocate_cases hr with ⟨hfit, rfl⟩ | ⟨hfit, hslow⟩
  · refine hs.update (i := i) hs.regions (fun j hji => returned_other w _ _ _ hji)
      (fun hn => absurd hn hsome) ?_
    intro j hji q hq
    simp only [World.returned, Function.update_self, List.drop_length, List.map_nil,
      List.append_nil] at hq
    exact hs.apart i j hji.symm q hq
  · obtain ⟨h', a', p⟩ := r
    have hg := grown_of_allocateSlow (fun q hq => (hw i a ha).head_mem hq) hslow
    refine hs.update (i := i) (hg.regions hs.regions) (fun j hji => returned_other w _ _ _ hji)
      (fun hn => absurd hn hsome) ?_
    intro j hji q hq
    simp only [World.returned, Function.update_self, hg.allocated, List.drop_left, List.map_cons,
      List.map_nil] at hq
    rcases List.mem_append.mp hq with hq | hq
    · exact hs.apart i j hji.symm q hq
    · rw [List.mem_singleton.mp hq]
      exact hg.new hs hw

/-! The other operations. -/

theorem reset_agree (hs : Separate w) (hch : Chained w.heap (w.owned i) a)
    (hr : a.reset w.heap = some (h', a')) (hji : j ≠ i) : Agree w.heap h' (w.owned j) := by
  rcases reset_cases hr with ⟨-, rfl, -⟩ | ⟨first, hrec⟩
  · exact Agree.refl _ _
  · obtain ⟨c, hc, hco, -⟩ := hch.chain
    refine ⟨?_, ?_⟩
    · intro q hq
      exact hrec.others c hc q fun hqc => hs.apart j i hji q hq (hco q hqc)
    · intro r hr' _
      rw [hrec.allocated]
      exact hr'

theorem reset_allocated (hr : a.reset h = some (h', a')) : h'.allocated = h.allocated := by
  rcases reset_cases hr with ⟨-, rfl, -⟩ | ⟨first, hrec⟩
  · rfl
  · exact hrec.allocated

theorem freeChain_regions (hch : Chained h o a) (hf : h.freeChain a.firstBlock = some h')
    (hr : h.allocated.Pairwise fun r s => r.base ≠ s.base ∧ r.Disjoint s) :
    h'.allocated.Pairwise fun r s => r.base ≠ s.base ∧ r.Disjoint s := by
  obtain ⟨c, hc, -⟩ := hch.chain
  rw [(freeChain_spec hc hf).2]
  exact hr.filter _

theorem Kept.reset (K : Kept C P) (hp : P h o l a) (hr : a.reset h = some (h', a')) :
    P h' o [] a' := by
  rcases reset_cases hr with ⟨-, rfl, rfl⟩ | ⟨first, hrec⟩
  · exact K.forget hp
  · exact K.recycle hp hrec

variable {source : Nat} {b : ArenaAllocator}

theorem Each.transfer (K : Kept C P) (hw : Each P w)
    (hag : ∀ j, j ≠ i → Agree w.heap h (w.owned j)) (his : i ≠ source)
    (hb : w.arenas source = some b) : Each P (w.transfer h i source b) := by
  intro j c hc
  by_cases hjs : j = source
  · subst hjs
    simp only [World.transfer, Function.update_self, Option.some.injEq] at hc ⊢
    subst hc
    exact K.empty _
  · by_cases hji : j = i
    · subst hji
      simp only [World.transfer, Function.update_of_ne hjs, Function.update_self,
        Option.some.injEq] at hc ⊢
      subst hc
      exact K.frame (hw source b hb) (hag source his.symm)
    · simp only [World.transfer, Function.update_of_ne hjs, Function.update_of_ne hji] at hc ⊢
      exact K.frame (hw j c hc) (hag j hji)

theorem Separate.transfer (hs : Separate w)
    (hr : h.allocated.Pairwise fun r s => r.base ≠ s.base ∧ r.Disjoint s) (his : i ≠ source) :
    Separate (w.transfer h i source b) := by
  refine ⟨hr, ?_, ?_⟩
  · intro j hj
    by_cases hjs : j = source
    · simp [World.transfer, hjs] at hj
    · by_cases hji : j = i
      · simp [World.transfer, hji, his] at hj
      · simp only [World.transfer, Function.update_of_ne hjs, Function.update_of_ne hji] at hj ⊢
        exact hs.absent j hj
  · -- the blocks of `i` are now those that were of `source`
    have hapart : Apart fun j q => q ∈ (w.transfer h i source b).owned j := by
      apply hs.ownedApart.handOver i source
      · intro q hq
        simp [World.transfer] at hq
      · intro _ q hq
        simpa [World.transfer, his] using hq
      · intro j q hji hjs hq
        simpa [World.transfer, hji, hjs] using hq
    intro j k hjk q
    exact hapart j k q hjk

/-- The step lemma for all invariants of this kind. -/
theorem Kept.step (K : Kept C P) {ndebug : Bool} {x : Action} (hw : Separate w ∧ Each P w)
    (hx : Admits C w x) (ht : World.step ndebug w x = some t) : Separate t ∧ Each P t := by
  obtain ⟨hs, hw⟩ := hw
  have hch := hw.chained K
  cases x with
  | create i blockSize =>
    simp only [World.step] at ht
    split_ifs at ht with hn
    cases ht
    obtain ⟨ho, hl⟩ := hs.absent i hn.1
    have hother : ∀ j, j ≠ i → Function.update w.arenas i (some { blockSize := blockSize }) j =
        w.arenas j ∧ w.owned j = w.owned j ∧ w.live j = w.live j := by
      intro j hji
      simp [hji]
    refine ⟨hs.update (i := i) hs.regions hother ?_ ?_, hw.update K (i := i) ?_ hother ?_⟩
    · intro _
      exact ⟨ho, hl⟩
    · intro j hji
      exact hs.apart i j hji.symm
    · intro j _ _ _
      exact Agree.refl _ _
    · intro a ha
      simp only [Function.update_self, Option.some.injEq] at ha
      subst ha
      simp only [ho, hl]
      exact K.empty blockSize
  | allocate i size alignment ptr =>
    obtain ⟨a, ha, hmap⟩ := Option.bind_eq_some_iff.mp ht
    obtain ⟨r, hr, rfl⟩ := Option.map_eq_some_iff.mp hmap
    exact ⟨hs.allocate hch ha hr, hw.allocate K hs ha (hx a ha) hr⟩
  | construct i sizeofT alignofT ptr =>
    obtain ⟨a, ha, hmap⟩ := Option.bind_eq_some_iff.mp ht
    obtain ⟨r, hr, rfl⟩ := Option.map_eq_some_iff.mp hmap
    exact ⟨hs.allocate hch ha hr, hw.allocate K hs ha (hx a ha) hr⟩
  | reset i =>
    obtain ⟨a, ha, hmap⟩ := Option.bind_eq_some_iff.mp ht
    obtain ⟨⟨h', a'⟩, hr, rfl⟩ := Option.map_eq_some_iff.mp hmap
    have hother : ∀ j, j ≠ i → Function.update w.arenas i (some a') j = w.arenas j ∧
        w.owned j = w.owned j ∧ Function.update w.live i [] j = w.live j := by
      intro j hji
      simp [hji]
    refine ⟨hs.update (i := i) ?_ hother ?_ ?_, hw.update K (i := i) ?_ hother ?_⟩
    · rw [reset_allocated hr]
      exact hs.regions
    · intro hn
      simp at hn
    · intro j hji
      exact hs.apart i j hji.symm
    · intro j _ hji _
      exact reset_agree hs (hch i a ha) hr hji
    · intro b hb
      simp only [Function.update_self, Option.some.injEq] at hb ⊢
      subst hb
      exact K.reset (hw i a ha) hr
  | moveConstruct i source =>
    simp only [World.step] at ht
    split_ifs at ht with hn
    obtain ⟨b, hb, rfl⟩ := Option.map_eq_some_iff.mp ht
    have his : i ≠ source := by
      rintro rfl
      cases hn.symm.trans hb
    exact ⟨hs.transfer hs.regions his, hw.transfer K (fun j _ => Agree.refl _ _) his hb⟩
  | moveAssign i source =>
    obtain ⟨a, ha, hmap⟩ := Option.bind_eq_some_iff.mp ht
    obtain ⟨b, hb, hif⟩ := Option.bind_eq_some_iff.mp hmap
    split_ifs at hif with his
    · cases hif
      exact ⟨hs, hw⟩
    · obtain ⟨h', hf, rfl⟩ := Option.map_eq_some_iff.mp hif
      exact ⟨hs.transfer (freeChain_regions (hch i a ha) hf hs.regions) his,
        hw.transfer K (fun j hji => freeChain_agree hs (hch i a ha) hf hji) his hb⟩
  | destroy i =>
    obtain ⟨a, ha, hmap⟩ := Option.bind_eq_some_iff.mp ht
    obtain ⟨h', hf, rfl⟩ := Option.map_eq_some_iff.mp hmap
    have hother : ∀ j, j ≠ i → Function.update w.arenas i none j = w.arenas j ∧
        Function.update w.owned i [] j = w.owned j ∧ Function.update w.live i [] j = w.live j := by
      intro j hji
      simp [hji]
    refine ⟨hs.update (i := i) (freeChain_regions (hch i a ha) hf hs.regions) hother ?_ ?_,
      hw.update K (i := i) (fun j _ hji _ => freeChain_agree hs (hch i a ha) hf hji) hother ?_⟩
    · intro _
      simp
    · intro j hji q hq
      simp at hq
    · intro b hb
      simp at hb

theorem each_initial (P : Heap → List Nat → List Range → ArenaAllocator → Prop) :
    Separate World.initial ∧ Each P World.initial := by
  refine ⟨⟨List.Pairwise.nil, fun _ _ => ⟨rfl, rfl⟩, ?_⟩, ?_⟩
  · intro i j _ q hq
    cases hq
  · intro i a ha
    cases ha

theorem Kept.invariant (K : Kept C P) {ndebug : Bool}
    (hr : (World.system ndebug).ReachableUnder (Admits C) w) : Separate w ∧ Each P w := by
  apply hr.invariant (P := fun w => Separate w ∧ Each P w)
  · intro w hw
    rw [show w = World.initial from hw]
    exact each_initial P
  · intro w x t hw hx ht
    exact K.step hw hx ht

end Jellybean.Memory
