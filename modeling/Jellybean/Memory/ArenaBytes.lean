import Jellybean.Memory.ArenaChain
import Jellybean.Memory.ArenaRanges

namespace Jellybean.Memory

variable {h h' : Heap} {a a' : ArenaAllocator} {o as bs : List Nat} {l : List Range}
  {size alignment ptr p q : Nat}

/-- The sum of the sizes requested since the last `reset`. -/
def requested (l : List Range) : Nat := (l.map fun r => r.size).sum

def usedSum (h : Heap) (blocks : List Nat) : Nat := (blocks.map fun q => (h.block q).used).sum

/-- A request in whose handling no size computation wraps, `alignment - 1` included. -/
def Unwrapping (_h : Heap) (a : ArenaAllocator) (size alignment : Nat) : Prop :=
  0 < alignment ∧ NoWrap a size alignment

/-- Rounding up with the mask of any alignment, a power of two or not. -/
theorem alignAddress_bounds {cur : Nat} (hal : 0 < alignment) (hcur : cur + alignment - 1 < 2^64) :
    cur ≤ alignAddress cur alignment ∧ alignAddress cur alignment ≤ cur + alignment - 1 := by
  have hsum : (cur + alignment + (2^64 - 1)) % 2^64 = cur + alignment - 1 := by omega
  have hmask : (alignment + (2^64 - 1)) % 2^64 = alignment - 1 := by omega
  have hsplit := and_not_add_and hcur (show alignment - 1 < 2^64 by omega)
  have hlow : (cur + alignment - 1) &&& (alignment - 1) ≤ alignment - 1 := Nat.and_le_right
  unfold alignAddress
  rw [hsum, hmask]
  omega

/-- The head stands somewhere in the chain: what is before it was filled since the last `reset`,
what is behind it has not been used since. -/
structure HeadIn (h : Heap) (l : List Range) (a : ArenaAllocator) (q : Nat) (as bs : List Nat) :
    Prop where
  linked : Linked h.next a.firstBlock (as ++ q :: bs)
  low : q + dataOffset ≤ a.current
  high : a.current ≤ q + dataOffset + (h.block q).size
  end_ : a.end_ = q + dataOffset + (h.block q).size
  filled : ∀ x ∈ as, (h.block x).used ≤ (h.block x).size
  unused : ∀ x ∈ bs, (h.block x).used = 0
  enough : requested l ≤ usedSum h as + (a.current - (q + dataOffset))

structure Metered (h : Heap) (o : List Nat) (l : List Range) (a : ArenaAllocator) : Prop where
  chained : Chained h o a
  counted : Counted h o a.totalAllocated
  fresh : a.head = none → a.current = 0 ∧ a.end_ = 0 ∧ requested l = 0
  head : ∀ q, a.head = some q → ∃ as bs, HeadIn h l a q as bs

theorem requested_append (l : List Range) (r : Range) : requested (l ++ [r]) = requested l + r.size := by
  simp [requested]

namespace Metered

theorem mem_owned (hm : Metered h o l a) {c : List Nat} (hc : Linked h.next a.firstBlock c)
    {x : Nat} (hx : x ∈ c) : x ∈ o := by
  obtain ⟨c', hc', hco, -⟩ := hm.chained.chain
  exact hco x (hc.unique hc' ▸ hx)

theorem frame (hm : Metered h o l a) (hag : Agree h h' o) : Metered h' o l a := by
  refine ⟨hm.chained.frame hag, hm.counted.of_sizes ?_ hag.allocated, hm.fresh, ?_⟩
  · intro x hx
    rw [hag.block x hx]
  · intro q hq
    obtain ⟨as, bs, hi⟩ := hm.head q hq
    have hsame : ∀ x ∈ as ++ q :: bs, h'.block x = h.block x := by
      intro x hx
      exact hag.block x (hm.mem_owned hi.linked hx)
    have hq' : h'.block q = h.block q := hsame q (by simp)
    have hused : usedSum h' as = usedSum h as := by
      unfold usedSum
      rw [List.map_congr_left fun x hx => by rw [hsame x (by simp [hx])]]
    refine ⟨as, bs, ?_, hi.low, ?_, ?_, ?_, ?_, ?_⟩
    · apply hi.linked.congr
      intro x hx
      unfold Heap.next
      rw [hsame x hx]
    · rw [hq']
      exact hi.high
    · rw [hq']
      exact hi.end_
    · intro x hx
      rw [hsame x (by simp [hx])]
      exact hi.filled x hx
    · intro x hx
      rw [hsame x (by simp [hx])]
      exact hi.unused x hx
    · rw [hused]
      exact hi.enough

theorem empty (blockSize : Nat) : Metered h [] [] { blockSize := blockSize } := by
  refine ⟨.empty blockSize, ⟨by simp, by simp, List.Pairwise.nil, rfl⟩, fun _ => ⟨rfl, rfl, rfl⟩, ?_⟩
  intro q hq
  cases hq

theorem bump (hm : Metered h o l a) (hu : Unwrapping h a size alignment)
    (hfit : Fits a size alignment) :
    Metered h o (l ++ [⟨⟨alignAddress a.current alignment, size⟩, alignment⟩])
      { a with current := (alignAddress a.current alignment + size) % 2^64 } := by
  obtain ⟨hal, hcur, hnext, -⟩ := hu
  obtain ⟨hle, -⟩ := alignAddress_bounds hal hcur
  unfold Fits at hfit
  rw [Nat.mod_eq_of_lt hnext] at hfit ⊢
  refine ⟨⟨hm.chained.owned, hm.chained.chain, hm.chained.headSome⟩, hm.counted, ?_, ?_⟩
  · intro hnone
    obtain ⟨-, hend, hreq⟩ := hm.fresh hnone
    rw [requested_append]
    dsimp only
    omega
  · intro q hq
    obtain ⟨as, bs, hi⟩ := hm.head q hq
    have hend := hi.end_
    have hlow := hi.low
    have henough := hi.enough
    refine ⟨as, bs, hi.linked, ?_, ?_, hend, hi.filled, hi.unused, ?_⟩
    · dsimp only
      omega
    · dsimp only
      omega
    · rw [requested_append]
      dsimp only
      omega

/-- The old head is frozen at its high-water mark. -/
theorem grow (hm : Metered h o l a) (hu : Unwrapping h a size alignment)
    (hfit : ¬Fits a size alignment) (hg : Grown h a size alignment ptr h' a' p) :
    Metered h' (o ++ [ptr]) (l ++ [⟨⟨p, size⟩, alignment⟩]) a' := by
  obtain ⟨hal, -, -, hslow⟩ := hu
  obtain ⟨hsum, hbytes⟩ := hslow hfit
  have hptr : ptr ∉ o := hg.not_mem hm.chained.owned
  have hcount := hm.counted.grow hptr hbytes hg
  have hnew : size + alignment ≤ newSize a size alignment := by
    unfold newSize
    rw [Nat.mod_eq_of_lt hsum]
    exact le_max_right _ _
  have hbound := hg.bound
  have hsize : (h'.block ptr).size = newSize a size alignment := by rw [hg.newBlock]
  rw [blockBytes, Nat.mod_eq_of_lt hbytes] at hbound
  have hroom : ptr + dataOffset + newSize a size alignment < 2^64 := by
    simp only [sizeofBlock, dataOffset] at *
    omega
  have hroom' : ptr + dataOffset + alignment - 1 < 2^64 := by omega
  obtain ⟨hlow, hhigh⟩ := alignAddress_bounds hal hroom'
  rw [← hg.pointer] at hlow hhigh
  have hcur : a'.current = p + size := by
    rw [hg.current]
    exact Nat.mod_eq_of_lt (by omega)
  have hend : a'.end_ = ptr + dataOffset + newSize a size alignment := by
    rw [hg.end_]
    exact Nat.mod_eq_of_lt hroom
  refine ⟨hm.chained.grow hg, hcount, ?_, ?_⟩
  · intro hnone
    cases hg.head.symm.trans hnone
  intro q' hq'
  cases hg.head.symm.trans hq'
  have hreq : requested (l ++ [⟨⟨p, size⟩, alignment⟩]) = requested l + size := requested_append _ _
  cases hh : a.head with
  | none =>
    have hfirst : a.firstBlock = none := by
      by_contra hf
      exact hm.chained.headSome hf hh
    obtain ⟨-, -, hzero⟩ := hm.fresh hh
    refine ⟨[], [], hg.chain_nil hfirst, by omega, by omega, by omega, by simp, by simp, ?_⟩
    rw [hreq, hcur]
    omega
  | some q =>
    obtain ⟨as, bs, hi⟩ := hm.head q hh
    have hnot : ptr ∉ as ++ q :: bs := fun hx => hptr (hm.mem_owned hi.linked hx)
    have hqp : q ≠ ptr := by
      rintro rfl
      exact hnot (by simp)
    have hsame : ∀ x ∈ as, h'.block x = h.block x := by
      intro x hx
      apply hg.others
      · rintro rfl
        exact hnot (by simp [hx])
      · intro hxq
        cases hh.symm.trans hxq
        have hnd := hi.linked.nodup
        rw [List.nodup_append] at hnd
        exact hnd.2.2 q hx q (by simp) rfl
    have hlow' := hi.low
    have hhigh' := hi.high
    have hqb := hm.counted.bound q (hm.mem_owned hi.linked (by simp))
    have hrec : (h'.block q).used = a.current - (q + dataOffset) := by
      rw [hg.recorded q hh]
      simp only [blockRegion, sizeofBlock, dataOffset] at *
      omega
    have hused : usedSum h' (as ++ [q]) = usedSum h as + (a.current - (q + dataOffset)) := by
      unfold usedSum
      rw [List.map_append, List.sum_append, List.map_congr_left fun x hx => by rw [hsame x hx],
        List.map_singleton, List.sum_singleton, hrec]
    have henough := hi.enough
    refine ⟨as ++ [q], [], ?_, by omega, by omega, by omega, ?_, by simp, ?_⟩
    · rw [List.append_assoc]
      exact hg.chain_append hi.linked hnot hh
    · intro x hx
      obtain hx | hx := List.mem_append.mp hx
      · rw [hsame x hx]
        exact hi.filled x hx
      · rw [List.mem_singleton.mp hx, hrec, hg.sizes q hqp]
        omega
    · rw [hreq, hused, hcur]
      omega

theorem forget (hm : Metered h o l a) : Metered h o [] a := by
  refine ⟨hm.chained, hm.counted, ?_, ?_⟩
  · intro hnone
    obtain ⟨hcur, hend, -⟩ := hm.fresh hnone
    exact ⟨hcur, hend, rfl⟩
  · intro q hq
    obtain ⟨as, bs, hi⟩ := hm.head q hq
    exact ⟨as, bs, hi.linked, hi.low, hi.high, hi.end_, hi.filled, hi.unused, Nat.zero_le _⟩

/-- After a `reset` the head is the first block, and no block has been used. -/
theorem headIn_of_recycled {first : Nat} (hm : Metered h o l a) (hr : Recycled h a first h' a') :
    ∃ bs, HeadIn h' [] a' first [] bs := by
  obtain ⟨c, hc, hco, -⟩ := hm.chained.chain
  have hfirst : c.head? = some first := by rw [← hc.head_eq, hr.firstBlock]
  obtain ⟨bs, rfl⟩ : ∃ bs, c = first :: bs :=
    ⟨c.tail, (List.cons_head?_tail hfirst).symm⟩
  have hb := hm.counted.bound first (hco first (by simp))
  have hend : (first + dataOffset + (h.block first).size) % 2^64 =
      first + dataOffset + (h.block first).size := by
    simp only [blockRegion, sizeofBlock, dataOffset] at *
    omega
  refine ⟨bs, ?_, ?_, ?_, ?_, by simp, ?_, Nat.zero_le _⟩
  · rw [hr.arena]
    exact hc.congr fun x _ => hr.next x
  · rw [hr.arena]
  · rw [hr.arena, hr.sizes]
    exact Nat.le_add_right _ _
  · rw [hr.arena, hr.sizes]
    exact hend
  · intro x hx
    exact hr.used _ hc x (by simp [hx])

theorem recycle {first : Nat} (hm : Metered h o l a) (hr : Recycled h a first h' a') :
    Metered h' o [] a' := by
  have hcount : Counted h' o a'.totalAllocated := by
    rw [hr.arena]
    apply hm.counted.of_sizes
    · intro x _
      exact hr.sizes x
    · intro r hr' _
      rw [hr.allocated]
      exact hr'
  refine ⟨hm.chained.recycle hr, hcount, ?_, ?_⟩
  · intro hnone
    rw [hr.arena] at hnone
    cases hnone
  · intro q hq
    rw [hr.arena] at hq
    cases hq
    obtain ⟨bs, hi⟩ := hm.headIn_of_recycled hr
    exact ⟨[], bs, hi⟩

theorem kept : Kept Unwrapping Metered where
  chained hm := hm.chained
  frame := frame
  empty := empty
  bump := bump
  grow := grow
  forget := forget
  recycle := recycle

end Metered

/-! What `bytes_allocated` returns. -/

theorem foldl_add_wrap {α : Type*} (f : α → Nat) {xs : List α} {n : Nat}
    (h : n + (xs.map f).sum < 2^64) :
    xs.foldl (fun total x => (total + f x) % 2^64) n = n + (xs.map f).sum := by
  induction xs generalizing n with
  | nil => rfl
  | cons x xs ih =>
    rw [List.map_cons, List.sum_cons] at h ⊢
    rw [List.foldl_cons, Nat.mod_eq_of_lt (by omega), ih (by omega), Nat.add_assoc]

theorem blockSizes_le (hn : as.Nodup) (ho : ∀ x ∈ as, x ∈ o) : blockSizes h as ≤ blockSizes h o := by
  obtain ⟨c, hperm, hsub⟩ := List.subperm_of_subset hn ho
  calc blockSizes h as = blockSizes h c := ((hperm.map _).sum_nat).symm
    _ ≤ blockSizes h o := (hsub.map _).sum_le_sum fun _ _ => Nat.zero_le _

/-- The frozen blocks count with what they recorded, the head up to `current_`, the rest with
nothing. -/
theorem HeadIn.sum_blockBytesUsed (hi : HeadIn h l a q as bs) (hq : a.head = some q)
    (hwrap : q + dataOffset + (h.block q).size < 2^64) :
    ((as ++ q :: bs).map (a.blockBytesUsed h)).sum = usedSum h as + (a.current - (q + dataOffset)) := by
  have hnd := hi.linked.nodup
  rw [List.nodup_append] at hnd
  obtain ⟨-, hqbs, hdisjoint⟩ := hnd
  have hlow := hi.low
  have hhigh := hi.high
  have hhead : a.blockBytesUsed h q = a.current - (q + dataOffset) := by
    unfold ArenaAllocator.blockBytesUsed
    rw [if_pos hq.symm]
    omega
  have hother : ∀ x, x ≠ q → a.blockBytesUsed h x = (h.block x).used := by
    intro x hx
    unfold ArenaAllocator.blockBytesUsed
    rw [if_neg]
    intro heq
    exact hx (Option.some_inj.mp (heq.trans hq))
  have hbefore : as.map (a.blockBytesUsed h) = as.map fun x => (h.block x).used := by
    apply List.map_congr_left
    intro x hx
    exact hother x (hdisjoint x hx q (by simp))
  have hbehind : (bs.map (a.blockBytesUsed h)).sum = 0 := by
    apply List.sum_eq_zero
    intro n hn
    obtain ⟨x, hx, rfl⟩ := List.mem_map.mp hn
    rw [hother x fun heq => (List.nodup_cons.mp hqbs).1 (heq ▸ hx)]
    exact hi.unused x hx
  rw [List.map_append, List.map_cons, List.sum_append, List.sum_cons, hbefore, hhead, hbehind]
  rfl

namespace Metered

/-- No block is larger than its part of `total_allocated_`, so the sum of the loop does not wrap. -/
theorem bytes_eq (hm : Metered h o l a) (hi : HeadIn h l a q as bs) (hq : a.head = some q) :
    a.bytesAllocated h = some (usedSum h as + (a.current - (q + dataOffset))) ∧
      usedSum h as + (a.current - (q + dataOffset)) ≤ a.totalAllocated := by
  have howned : ∀ x ∈ as ++ q :: bs, x ∈ o := fun x hx => hm.mem_owned hi.linked hx
  have hb := hm.counted.bound q (howned q (by simp))
  have hwrap : q + dataOffset + (h.block q).size < 2^64 := by
    simp only [blockRegion, sizeofBlock, dataOffset] at *
    omega
  have hsum := hi.sum_blockBytesUsed hq hwrap
  have hfilled : usedSum h as ≤ blockSizes h as := List.sum_le_sum hi.filled
  have hsizes : blockSizes h as + (h.block q).size + blockSizes h bs =
      blockSizes h (as ++ q :: bs) := by
    simp [blockSizes, Nat.add_assoc]
  have hall := blockSizes_le (h := h) hi.linked.nodup howned
  have htotal := hm.counted.total
  have hlt := blockSizes_lt hm.counted.bound hm.counted.apart
  have hlow := hi.low
  have hhigh := hi.high
  have hle : usedSum h as + (a.current - (q + dataOffset)) ≤ a.totalAllocated := by omega
  refine ⟨?_, hle⟩
  unfold ArenaAllocator.bytesAllocated
  rw [chain_eq hi.linked fun x hx => hm.chained.owned x (howned x hx), Option.map_some,
    foldl_add_wrap _ (by omega), hsum, Nat.zero_add]

theorem bytes_of_no_block (hf : a.firstBlock = none) : a.bytesAllocated h = some 0 := by
  have hchain : h.chain a.firstBlock = some [] := by
    rw [hf]
    exact chain_eq rfl (by simp)
  unfold ArenaAllocator.bytesAllocated
  rw [hchain]
  rfl

theorem bytesAllocated (hm : Metered h o l a) :
    ∃ n, a.bytesAllocated h = some n ∧ requested l ≤ n ∧ n ≤ a.totalAllocated := by
  cases hh : a.head with
  | none =>
    have hfirst : a.firstBlock = none := by
      by_contra hf
      exact hm.chained.headSome hf hh
    obtain ⟨-, -, hzero⟩ := hm.fresh hh
    exact ⟨0, bytes_of_no_block hfirst, hzero.le, Nat.zero_le _⟩
  | some q =>
    obtain ⟨as, bs, hi⟩ := hm.head q hh
    obtain ⟨hbytes, hle⟩ := hm.bytes_eq hi hh
    exact ⟨_, hbytes, hi.enough, hle⟩

/-- `reset` gives every byte back. -/
theorem reset (hm : Metered h o l a) :
    ∃ h' a', a.reset h = some (h', a') ∧ a'.bytesAllocated h' = some 0 := by
  obtain ⟨c, hc, hco, -⟩ := hm.chained.chain
  obtain ⟨⟨h', a'⟩, hr⟩ : ∃ r, a.reset h = some r := by
    unfold ArenaAllocator.reset
    split
    · exact ⟨_, rfl⟩
    · rw [chain_eq hc fun x hx => hm.chained.owned x (hco x hx)]
      exact ⟨_, rfl⟩
  refine ⟨h', a', hr, ?_⟩
  obtain ⟨hf, rfl, rfl⟩ | ⟨first, hrec⟩ := reset_cases hr
  · exact bytes_of_no_block hf
  · obtain ⟨bs, hi⟩ := hm.headIn_of_recycled hrec
    have hhead : a'.head = some first := by rw [hrec.arena]
    have hcur : a'.current = first + dataOffset := by rw [hrec.arena]
    rw [((hm.recycle hrec).bytes_eq hi hhead).1, hcur, Nat.sub_self]
    rfl

end Metered

/-- In every arena the bytes in use lie between what has been requested since the last `reset` and
what has come from the system, so that `bytes_wasted` is their difference; after a `reset` none is
in use. -/
theorem bytesAllocated_bounds (ndebug : Bool) (w : World)
    (hr : (World.system ndebug).ReachableUnder (Admits Unwrapping) w) (i : Nat) (a : ArenaAllocator)
    (ha : w.arenas i = some a) :
    (∃ n m, a.bytesAllocated w.heap = some n ∧ requested (w.live i) ≤ n ∧ n ≤ a.totalAllocated ∧
      a.bytesWasted w.heap = some m ∧ n + m = a.totalAllocated) ∧
    ∃ h' a', a.reset w.heap = some (h', a') ∧ a'.bytesAllocated h' = some 0 := by
  have hm := (Metered.kept.invariant hr).2 i a ha
  refine ⟨?_, hm.reset⟩
  obtain ⟨n, hn, hlow, hhigh⟩ := hm.bytesAllocated
  have hlt := blockSizes_lt hm.counted.bound hm.counted.apart
  have htotal := hm.counted.total
  refine ⟨n, a.totalAllocated - n, hn, hlow, hhigh, ?_, by omega⟩
  unfold ArenaAllocator.bytesWasted
  rw [hn, Option.map_some, Option.some_inj]
  omega

instance (h : Heap) (a : ArenaAllocator) (size alignment : Nat) :
    Decidable (Unwrapping h a size alignment) :=
  have : Decidable (Fits a size alignment) := inferInstanceAs (Decidable (_ ≤ _))
  inferInstanceAs (Decidable (_ ∧ _ ∧ _ ∧ (¬ _ → _ ∧ _)))

/-- An arena drops a block from its chain: 37 and 35 bytes are requested after the `reset`, and
three blocks of 64 bytes have come from the system. -/
def droppedBlock : List Action :=
  [.create 0 64, .allocate 0 60 1 4096, .allocate 0 40 16 8192, .reset 0, .allocate 0 37 1 0,
    .allocate 0 35 8 12288]

theorem bytesAllocated_bounds_droppedBlock :
    ∃ w a, (World.system false).run World.initial droppedBlock = some w ∧ w.arenas 0 = some a ∧
      requested (w.live 0) = 72 ∧ a.totalAllocated = 192 ∧
      (∃ n m, a.bytesAllocated w.heap = some n ∧ 72 ≤ n ∧ n ≤ 192 ∧
        a.bytesWasted w.heap = some m ∧ n + m = 192) ∧
      ∃ h' a', a.reset w.heap = some (h', a') ∧ a'.bytesAllocated h' = some 0 := by
  have hrun : ((World.system false).run World.initial droppedBlock).map
      (fun w => (requested (w.live 0), (w.arenas 0).map (·.totalAllocated))) = some (72, some 192) := by
    decide +kernel
  obtain ⟨w, hw, hobs⟩ := Option.map_eq_some_iff.mp hrun
  obtain ⟨hreq, harena⟩ := Prod.mk.inj hobs
  obtain ⟨a, ha, htotal⟩ := Option.map_eq_some_iff.mp harena
  have hc : (World.system false).Complies (Admits Unwrapping) World.initial droppedBlock := by
    decide +kernel
  obtain ⟨hbytes, hreset⟩ := bytesAllocated_bounds false w (.run (.init rfl) hc hw) 0 a ha
  rw [hreq, htotal] at hbytes
  exact ⟨w, a, hw, ha, hreq, htotal, hbytes, hreset⟩

end Jellybean.Memory
