import Jellybean.Memory.ArenaInvariant

namespace Jellybean.Memory

variable {h h' : Heap} {a a' : ArenaAllocator} {o : List Nat} {l : List Range}
  {size alignment ptr p : Nat}

/-- The region that holds a block. -/
def blockRegion (h : Heap) (q : Nat) : Region := ⟨q, sizeofBlock + (h.block q).size - 1⟩

def blockSizes (h : Heap) (blocks : List Nat) : Nat := (blocks.map fun q => (h.block q).size).sum

/-- A slow allocation finds `head_` at the end of the chain, and its size does not wrap. -/
def Appends (h : Heap) (a : ArenaAllocator) (size alignment : Nat) : Prop :=
  ¬ Fits a size alignment →
    (∀ q, a.head = some q → h.next q = none) ∧ sizeofBlock + newSize a size alignment - 1 < 2^64

/-- The chain holds the blocks in the order in which they were obtained. -/
structure Complete (h : Heap) (o : List Nat) (l : List Range) (a : ArenaAllocator) : Prop where
  chained : Chained h o a
  linked : Linked h.next a.firstBlock o
  regions : ∀ q ∈ o, blockRegion h q ∈ h.allocated
  bound : ∀ q ∈ o, q + (blockRegion h q).size ≤ 2^64
  apart : (o.map (blockRegion h)).Pairwise Region.Disjoint
  total : a.totalAllocated = blockSizes h o

theorem blockRegion_congr {q : Nat} (hs : (h'.block q).size = (h.block q).size) :
    blockRegion h' q = blockRegion h q := by
  unfold blockRegion
  rw [hs]

theorem blockSizes_congr (hs : ∀ q ∈ o, (h'.block q).size = (h.block q).size) :
    blockSizes h' o = blockSizes h o := by
  unfold blockSizes
  rw [List.map_congr_left hs]

theorem blockSizes_lt (hb : ∀ q ∈ o, q + (blockRegion h q).size ≤ 2^64)
    (hd : (o.map (blockRegion h)).Pairwise Region.Disjoint) : blockSizes h o < 2^64 := by
  cases o with
  | nil => simp [blockSizes]
  | cons q qs =>
    have hle := sum_sizes_le (N := 2^64) hd fun r hr => by
      obtain ⟨x, hx, rfl⟩ := List.mem_map.mp hr
      exact hb x hx
    have hsum : ∀ xs : List Nat, blockSizes h xs ≤ ((xs.map (blockRegion h)).map Region.size).sum := by
      intro xs
      induction xs with
      | nil => simp [blockSizes]
      | cons x xs ih =>
        simp only [blockSizes, List.map_cons, List.sum_cons, blockRegion, sizeofBlock] at ih ⊢
        omega
    have hqs := hsum qs
    simp only [blockSizes, List.map_cons, List.sum_cons, blockRegion, sizeofBlock] at hle hqs ⊢
    omega

/-- The blocks are disjoint regions from `malloc`, and `n` is the sum of their sizes. -/
structure Counted (h : Heap) (o : List Nat) (n : Nat) : Prop where
  regions : ∀ q ∈ o, blockRegion h q ∈ h.allocated
  bound : ∀ q ∈ o, q + (blockRegion h q).size ≤ 2^64
  apart : (o.map (blockRegion h)).Pairwise Region.Disjoint
  total : n = blockSizes h o

namespace Counted

variable {n : Nat}

theorem of_sizes (hc : Counted h o n) (hs : ∀ q ∈ o, (h'.block q).size = (h.block q).size)
    (ha : ∀ r ∈ h.allocated, r.base ∈ o → r ∈ h'.allocated) : Counted h' o n := by
  have hreg : ∀ q ∈ o, blockRegion h' q = blockRegion h q :=
    fun q hq => blockRegion_congr (hs q hq)
  refine ⟨?_, ?_, ?_, ?_⟩
  · intro q hq
    rw [hreg q hq]
    exact ha _ (hc.regions q hq) hq
  · intro q hq
    rw [hreg q hq]
    exact hc.bound q hq
  · rw [List.map_congr_left hreg]
    exact hc.apart
  · rw [hc.total, blockSizes_congr hs]

/-- A new block counts in full: disjoint regions leave no room for the sum to wrap. -/
theorem grow (hc : Counted h o a.totalAllocated) (hptr : ptr ∉ o)
    (hbytes : sizeofBlock + newSize a size alignment - 1 < 2^64)
    (hg : Grown h a size alignment ptr h' a' p) : Counted h' (o ++ [ptr]) a'.totalAllocated := by
  have hsizes : ∀ q ∈ o, (h'.block q).size = (h.block q).size := by
    intro q hq
    apply hg.sizes
    rintro rfl
    exact hptr hq
  have hreg : ∀ q ∈ o, blockRegion h' q = blockRegion h q :=
    fun q hq => blockRegion_congr (hsizes q hq)
  have hnew : blockRegion h' ptr = ⟨ptr, blockBytes (newSize a size alignment)⟩ := by
    unfold blockRegion blockBytes
    rw [hg.newBlock, Nat.mod_eq_of_lt hbytes]
  have hbound : ∀ q ∈ o ++ [ptr], q + (blockRegion h' q).size ≤ 2^64 := by
    intro q hq
    rcases List.mem_append.mp hq with hq | hq
    · rw [hreg q hq]
      exact hc.bound q hq
    · rw [List.mem_singleton.mp hq, hnew]
      exact hg.bound
  have hapart : ((o ++ [ptr]).map (blockRegion h')).Pairwise Region.Disjoint := by
    rw [List.map_append, List.map_congr_left hreg, List.pairwise_append]
    refine ⟨hc.apart, List.pairwise_singleton _ _, ?_⟩
    intro r hr s hs
    obtain ⟨q, hq, rfl⟩ := List.mem_map.mp hr
    rw [List.mem_singleton.mp hs, hnew]
    exact (hg.fresh _ (hc.regions q hq)).2
  have hsum : blockSizes h' (o ++ [ptr]) = blockSizes h o + newSize a size alignment := by
    rw [← blockSizes_congr hsizes]
    simp [blockSizes, hg.newBlock]
  refine ⟨?_, hbound, hapart, ?_⟩
  · intro q hq
    rw [hg.allocated]
    rcases List.mem_append.mp hq with hq | hq
    · rw [hreg q hq]
      exact List.mem_append_left _ (hc.regions q hq)
    · rw [List.mem_singleton.mp hq, hnew]
      exact List.mem_append_right _ (List.mem_singleton_self _)
  · have hlt := blockSizes_lt hbound hapart
    rw [hsum] at hlt ⊢
    rw [hg.total, hc.total, Nat.mod_eq_of_lt hlt]

end Counted

namespace Complete

theorem counted (hc : Complete h o l a) : Counted h o a.totalAllocated :=
  ⟨hc.regions, hc.bound, hc.apart, hc.total⟩

/-- Everything but the links depends on the sizes only. -/
theorem of_sizes (hc : Complete h o l a) (hch : Chained h' o a') (hl : Linked h'.next a'.firstBlock o)
    (hs : ∀ q ∈ o, (h'.block q).size = (h.block q).size)
    (ha : ∀ r ∈ h.allocated, r.base ∈ o → r ∈ h'.allocated)
    (ht : a'.totalAllocated = a.totalAllocated) : Complete h' o [] a' := by
  obtain ⟨hregions, hbound, hapart, htotal⟩ := hc.counted.of_sizes hs ha
  exact ⟨hch, hl, hregions, hbound, hapart, ht.trans htotal⟩

theorem live (hc : Complete h o l a) (l' : List Range) : Complete h o l' a :=
  ⟨hc.chained, hc.linked, hc.regions, hc.bound, hc.apart, hc.total⟩

theorem frame (hc : Complete h o l a) (hag : Agree h h' o) : Complete h' o l a := by
  refine (hc.of_sizes (hc.chained.frame hag) ?_ ?_ hag.allocated rfl).live l
  · apply hc.linked.congr
    intro q hq
    exact hag.next hq
  · intro q hq
    rw [hag.block q hq]

theorem empty (blockSize : Nat) : Complete h [] [] { blockSize := blockSize } :=
  ⟨.empty blockSize, rfl, by simp, by simp, List.Pairwise.nil, rfl⟩

theorem recycle {first : Nat} (hc : Complete h o l a) (hr : Recycled h a first h' a') :
    Complete h' o [] a' := by
  apply hc.of_sizes (hc.chained.recycle hr)
  · rw [hr.arena]
    exact hc.linked.congr fun q _ => hr.next q
  · intro q _
    exact hr.sizes q
  · intro r hr' _
    rw [hr.allocated]
    exact hr'
  · rw [hr.arena]

theorem grow (hc : Complete h o l a) (happ : Appends h a size alignment)
    (hfit : ¬ Fits a size alignment) (hg : Grown h a size alignment ptr h' a' p) :
    Complete h' (o ++ [ptr]) (l ++ [⟨⟨p, size⟩, alignment⟩]) a' := by
  obtain ⟨hlast, hbytes⟩ := happ hfit
  have hptr : ptr ∉ o := hg.not_mem hc.chained.owned
  have hlinked : Linked h'.next a'.firstBlock (o ++ [ptr]) := by
    obtain ⟨c, hcl, -, hhead⟩ := hc.chained.chain
    cases hcl.unique hc.linked
    obtain ⟨as, hlink, bs, rfl, hbs⟩ := hg.chain hc.linked hptr hhead
    have hnil : bs = [] := by
      cases hh : a.head with
      | none =>
        have hfirst : a.firstBlock = none := by
          by_contra hf
          exact hc.chained.headSome hf hh
        rw [hfirst] at hcl
        exact (List.append_eq_nil_iff.mp hcl.eq_nil).2
      | some q =>
        apply List.head?_eq_none_iff.mp
        rw [hbs q hh, hlast q hh]
    rwa [hnil, List.append_nil]
  obtain ⟨hregions, hbound, hapart, htotal⟩ := hc.counted.grow hptr hbytes hg
  exact ⟨hc.chained.grow hg, hlinked, hregions, hbound, hapart, htotal⟩

theorem kept : Kept Appends Complete where
  chained hc := hc.chained
  frame := frame
  empty := empty
  bump hc _ _ := ⟨⟨hc.chained.owned, hc.chained.chain, hc.chained.headSome⟩, hc.linked, hc.regions,
    hc.bound, hc.apart, hc.total⟩
  grow := grow
  forget hc := hc.live []
  recycle := recycle

end Complete

/-- The sizes along the chain of each arena add up to `total_allocated_`, every block it has
obtained is in the chain, and its destructor frees these blocks and no others, each once. -/
def Accounted (w : World) : Prop :=
  ∀ i a, w.arenas i = some a →
    ∃ blocks, Linked w.heap.next a.firstBlock blocks ∧
      a.totalAllocated = blockSizes w.heap blocks ∧ (∀ q ∈ w.owned i, q ∈ blocks) ∧
      ∃ h', w.heap.freeChain a.firstBlock = some h' ∧
        ∀ r ∈ w.heap.allocated, r ∈ h'.allocated ↔ r.base ∉ w.owned i

theorem accounted_of_appends (ndebug : Bool) (w : World)
    (hr : (World.system ndebug).ReachableUnder (Admits Appends) w) : Accounted w := by
  obtain ⟨-, hw⟩ := Complete.kept.invariant hr
  intro i a ha
  have hc := hw i a ha
  obtain ⟨h', hf⟩ := Option.isSome_iff_exists.mp (freeChain_isSome hc.linked hc.chained.owned)
  refine ⟨w.owned i, hc.linked, hc.total, fun q hq => hq, h', hf, ?_⟩
  intro r hr'
  rw [(freeChain_spec hc.linked hf).2, List.mem_filter]
  simp [hr']

instance (h : Heap) (a : ArenaAllocator) (size alignment : Nat) :
    Decidable (Appends h a size alignment) :=
  have : Decidable (Fits a size alignment) := inferInstanceAs (Decidable (_ ≤ _))
  have : Decidable (∀ q, a.head = some q → h.next q = none) :=
    inferInstanceAs (Decidable (∀ q ∈ a.head, h.next q = none))
  inferInstanceAs (Decidable (¬ _ → _ ∧ _))

/-- An arena takes two blocks and is reset. -/
def twoBlocks : List Action :=
  [.create 0 64, .allocate 0 60 1 4096, .allocate 0 60 1 8192, .reset 0, .allocate 0 60 1 0]

theorem accounted_of_appends_twoBlocks :
    ∃ w, (World.system false).run World.initial twoBlocks = some w ∧ w.owned 0 = [4096, 8192] ∧
      Accounted w := by
  have hrun : ((World.system false).run World.initial twoBlocks).map (fun w => w.owned 0) =
      some [4096, 8192] := by
    decide +kernel
  obtain ⟨w, hw, ho⟩ := Option.map_eq_some_iff.mp hrun
  refine ⟨w, hw, ho, accounted_of_appends false w ?_⟩
  refine System.ReachableUnder.run (.init rfl) ?_ hw
  decide +kernel

/-- The first block overflows once more: the new block takes the place of the second one. -/
def overflowAgain : List Action := twoBlocks ++ [.allocate 0 60 1 12288]

theorem overflowAgain_not_accounted :
    ∃ w, (World.system false).Reachable w ∧ ¬ Accounted w := by
  have hrun : ((World.system false).run World.initial overflowAgain).map (fun w =>
      (w.owned 0, (w.arenas 0).map (·.firstBlock), w.heap.next 4096, w.heap.next 12288)) =
        some ([4096, 8192, 12288], some (some 4096), some 12288, none) := by
    decide +kernel
  obtain ⟨w, hw, he⟩ := Option.map_eq_some_iff.mp hrun
  simp only [Prod.mk.injEq] at he
  obtain ⟨ho, ha, h1, h2⟩ := he
  obtain ⟨a, ha, hf⟩ := Option.map_eq_some_iff.mp ha
  refine ⟨w, System.Reachable.run (.init rfl) hw, ?_⟩
  intro hacc
  obtain ⟨blocks, hl, -, hall, -⟩ := hacc 0 a ha
  have hchain : Linked w.heap.next a.firstBlock [4096, 12288] := ⟨hf, h1, h2⟩
  have hmem := hall 8192 (by rw [ho]; decide)
  rw [hl.unique hchain] at hmem
  exact absurd hmem (by decide)

end Jellybean.Memory
