import Jellybean.Memory.ArenaInvariant

namespace Jellybean.Memory

variable {h h' : Heap} {a a' : ArenaAllocator} {o : List Nat} {l : List Range}
  {size alignment ptr p : Nat}

theorem alignAddress_eq {cur k : Nat} (hk : k < 64) (hw : cur + 2^k - 1 < 2^64) :
    alignAddress cur (2^k) = roundUp cur (2^k) := by
  have hpos : 0 < 2^k := Nat.two_pow_pos k
  have hlt : 2^k < 2^64 := Nat.pow_lt_pow_right (by decide) hk
  have hsum : (cur + 2^k + (2^64 - 1)) % 2^64 = cur + 2^k - 1 := by
    rw [show cur + 2^k + (2^64 - 1) = cur + 2^k - 1 + 2^64 by omega, Nat.add_mod_right,
      Nat.mod_eq_of_lt hw]
  have hmask : (2^k + (2^64 - 1)) % 2^64 = 2^k - 1 := by
    rw [show 2^k + (2^64 - 1) = 2^k - 1 + 2^64 by omega, Nat.add_mod_right,
      Nat.mod_eq_of_lt (by omega)]
  unfold alignAddress
  rw [hsum, hmask]
  exact and_not_mask hw hk.le

/-- No sum that the call computes reaches 2^64. -/
def NoWrap (a : ArenaAllocator) (size alignment : Nat) : Prop :=
  a.current + alignment - 1 < 2^64 ∧ alignAddress a.current alignment + size < 2^64 ∧
    (¬ Fits a size alignment →
      size + alignment < 2^64 ∧ sizeofBlock + newSize a size alignment - 1 < 2^64)

/-- A request as callers may make it. -/
structure Request (a : ArenaAllocator) (size alignment : Nat) : Prop where
  size_pos : 0 < size
  pow_two : ∃ k < 64, alignment = 2^k
  noWrap : NoWrap a size alignment

/-- The data area of a block. -/
def data (h : Heap) (q : Nat) : Region := ⟨q + dataOffset, (h.block q).size⟩

/-- The ranges lie in the data areas of the arena's blocks, in that of `head_` before `current_`. -/
structure Placed (h : Heap) (o : List Nat) (l : List Range) (a : ArenaAllocator) : Prop where
  chained : Chained h o a
  regions : ∀ q ∈ o, ⟨q, sizeofBlock + (h.block q).size - 1⟩ ∈ h.allocated
  bound : ∀ q ∈ o, q + (sizeofBlock + (h.block q).size - 1) ≤ 2^64
  apart : ∀ q ∈ o, ∀ q' ∈ o, q ≠ q' → (data h q).Disjoint (data h q')
  noHead : a.head = none → a.end_ = 0
  head : ∀ q, a.head = some q → q + dataOffset ≤ a.current ∧ a.current ≤ a.end_ ∧
    a.end_ = q + dataOffset + (h.block q).size
  aligned : ∀ r ∈ l, r.alignment ∣ r.base
  within : ∀ r ∈ l, ∃ q ∈ o, r.Within (data h q) ∧ (a.head = some q → r.base + r.size ≤ a.current)
  disjoint : l.Pairwise fun r s => r.Disjoint s.toRegion

theorem data_within (q : Nat) : (data h q).Within ⟨q, sizeofBlock + (h.block q).size - 1⟩ := by
  simp only [data, Region.Within, dataOffset, sizeofBlock]
  omega

namespace Placed

theorem frame (hp : Placed h o l a) (hag : Agree h h' o) : Placed h' o l a := by
  have hdata : ∀ q ∈ o, data h' q = data h q := by
    intro q hq
    unfold data
    rw [hag.block q hq]
  have hhead : ∀ q, a.head = some q → q ∈ o := by
    intro q hq
    obtain ⟨c, -, hco, hc⟩ := hp.chained.chain
    exact hco q (hc q hq)
  refine ⟨hp.chained.frame hag, ?_, ?_, ?_, hp.noHead, ?_, hp.aligned, ?_, hp.disjoint⟩
  · intro q hq
    rw [hag.block q hq]
    exact hag.allocated _ (hp.regions q hq) hq
  · intro q hq
    rw [hag.block q hq]
    exact hp.bound q hq
  · intro q hq q' hq' hne
    rw [hdata q hq, hdata q' hq']
    exact hp.apart q hq q' hq' hne
  · intro q hq
    rw [hag.block q (hhead q hq)]
    exact hp.head q hq
  · intro r hr
    obtain ⟨q, hq, hwithin, hcur⟩ := hp.within r hr
    exact ⟨q, hq, by rwa [hdata q hq], hcur⟩

theorem empty (blockSize : Nat) : Placed h [] [] { blockSize := blockSize } := by
  refine ⟨.empty blockSize, by simp, by simp, by simp, fun _ => rfl, ?_, by simp, by simp,
    List.Pairwise.nil⟩
  intro q hq
  cases hq

theorem forget (hp : Placed h o l a) : Placed h o [] a :=
  ⟨hp.chained, hp.regions, hp.bound, hp.apart, hp.noHead, hp.head, by simp, by simp,
    List.Pairwise.nil⟩

/-- An arena without a block has no room for a byte. -/
theorem head_of_fits (hp : Placed h o l a) (hpos : 0 < size)
    (hnext : alignAddress a.current alignment + size < 2^64) (hfit : Fits a size alignment) :
    ∃ q, a.head = some q := by
  unfold Fits at hfit
  rw [Nat.mod_eq_of_lt hnext] at hfit
  cases hh : a.head with
  | none =>
    have := hp.noHead hh
    omega
  | some q => exact ⟨q, rfl⟩

theorem bump (hp : Placed h o l a) (hpow : ∃ k < 64, alignment = 2^k)
    (hcur : a.current + alignment - 1 < 2^64)
    (hnext : alignAddress a.current alignment + size < 2^64) (hhead : ∃ q, a.head = some q)
    (hfit : Fits a size alignment) :
    Placed h o (l ++ [⟨⟨alignAddress a.current alignment, size⟩, alignment⟩])
      { a with current := (alignAddress a.current alignment + size) % 2^64 } := by
  obtain ⟨k, hk, rfl⟩ := hpow
  unfold Fits at hfit
  rw [Nat.mod_eq_of_lt hnext] at hfit ⊢
  have heq := alignAddress_eq hk hcur
  have hle : a.current ≤ alignAddress a.current (2^k) := heq ▸ le_roundUp (Nat.two_pow_pos k)
  have hdvd : 2^k ∣ alignAddress a.current (2^k) := heq ▸ dvd_roundUp _ _
  generalize alignAddress a.current (2^k) = aligned at *
  obtain ⟨q, hq⟩ := hhead
  obtain ⟨hlow, hmid, hend⟩ := hp.head q hq
  have hqo : q ∈ o := by
    obtain ⟨c, -, hco, hc⟩ := hp.chained.chain
    exact hco q (hc q hq)
  have hin : Region.Within ⟨aligned, size⟩ (data h q) := by
    simp only [Region.Within, data]
    omega
  refine ⟨⟨hp.chained.owned, hp.chained.chain, hp.chained.headSome⟩, hp.regions, hp.bound,
    hp.apart, hp.noHead, ?_, ?_, ?_, ?_⟩
  · intro q' hq'
    obtain ⟨h1, h2, h3⟩ := hp.head q' hq'
    dsimp only
    omega
  · intro r hr
    rcases List.mem_append.mp hr with hr | hr
    · exact hp.aligned r hr
    · rw [List.mem_singleton.mp hr]
      exact hdvd
  · intro r hr
    rcases List.mem_append.mp hr with hr | hr
    · obtain ⟨q', hq', hwithin, hc⟩ := hp.within r hr
      refine ⟨q', hq', hwithin, fun hh => ?_⟩
      have := hc hh
      dsimp only
      omega
    · rw [List.mem_singleton.mp hr]
      exact ⟨q, hqo, hin, fun _ => le_rfl⟩
  · rw [List.pairwise_append]
    refine ⟨hp.disjoint, List.pairwise_singleton _ _, ?_⟩
    intro r hr s hs
    rw [List.mem_singleton.mp hs]
    obtain ⟨q', hq', hwithin, hc⟩ := hp.within r hr
    by_cases hqq : q' = q
    · -- in the current block everything returned before ends at `current_`
      left
      have := hc (hqq ▸ hq)
      dsimp only
      omega
    · exact (hp.apart q' hq' q hqo hqq).mono hwithin hin

theorem grow (hp : Placed h o l a) (hpow : ∃ k < 64, alignment = 2^k)
    (hsum : size + alignment < 2^64)
    (hbytes : sizeofBlock + newSize a size alignment - 1 < 2^64)
    (hg : Grown h a size alignment ptr h' a' p) :
    Placed h' (o ++ [ptr]) (l ++ [⟨⟨p, size⟩, alignment⟩]) a' := by
  obtain ⟨k, hk, rfl⟩ := hpow
  have hptr : ptr ∉ o := hg.not_mem hp.chained.owned
  have hnew : size + 2^k ≤ newSize a size (2^k) := by
    unfold newSize
    rw [Nat.mod_eq_of_lt hsum]
    exact le_max_right _ _
  have hbb : blockBytes (newSize a size (2^k)) = sizeofBlock + newSize a size (2^k) - 1 :=
    Nat.mod_eq_of_lt hbytes
  have hbound := hg.bound
  have hfresh := hg.fresh
  have hal := hg.allocated
  rw [hbb] at hbound hfresh hal
  have hsize : (h'.block ptr).size = newSize a size (2^k) := by rw [hg.newBlock]
  have hpos2 : 0 < 2^k := Nat.two_pow_pos k
  have hp_eq : p = roundUp (ptr + dataOffset) (2^k) := by
    rw [hg.pointer]
    apply alignAddress_eq hk
    simp only [sizeofBlock, dataOffset] at *
    omega
  have hp_le : ptr + dataOffset ≤ p := hp_eq ▸ le_roundUp hpos2
  have hp_lt : p < ptr + dataOffset + 2^k := hp_eq ▸ roundUp_lt hpos2
  have hdvd : 2^k ∣ p := hp_eq ▸ dvd_roundUp _ _
  have hcur : a'.current = p + size := by
    rw [hg.current]
    apply Nat.mod_eq_of_lt
    simp only [sizeofBlock, dataOffset] at *
    omega
  have hend : a'.end_ = ptr + dataOffset + newSize a size (2^k) := by
    rw [hg.end_]
    apply Nat.mod_eq_of_lt
    simp only [sizeofBlock, dataOffset] at *
    omega
  have hin : Region.Within ⟨p, size⟩ (data h' ptr) := by
    simp only [Region.Within, data, hsize]
    omega
  have hsizes : ∀ q ∈ o, (h'.block q).size = (h.block q).size := by
    intro q hq
    apply hg.sizes
    rintro rfl
    exact hptr hq
  have hdata : ∀ q ∈ o, data h' q = data h q := by
    intro q hq
    unfold data
    rw [hsizes q hq]
  have hapart : ∀ q ∈ o, (data h' q).Disjoint (data h' ptr) := by
    intro q hq
    have hd := (hfresh _ (hp.regions q hq)).2
    rw [← hsizes q hq, ← hsize] at hd
    exact hd.mono (data_within q) (data_within ptr)
  refine ⟨hp.chained.grow hg, ?_, ?_, ?_, ?_, ?_, ?_, ?_, ?_⟩
  · intro q hq
    rw [hal]
    rcases List.mem_append.mp hq with hq | hq
    · rw [hsizes q hq]
      exact List.mem_append_left _ (hp.regions q hq)
    · rw [List.mem_singleton.mp hq, hsize]
      exact List.mem_append_right _ (List.mem_singleton_self _)
  · intro q hq
    rcases List.mem_append.mp hq with hq | hq
    · rw [hsizes q hq]
      exact hp.bound q hq
    · rw [List.mem_singleton.mp hq, hsize]
      exact hbound
  · intro q hq q' hq' hne
    rcases List.mem_append.mp hq with hq | hq <;> rcases List.mem_append.mp hq' with hq' | hq'
    · rw [hdata q hq, hdata q' hq']
      exact hp.apart q hq q' hq' hne
    · rw [List.mem_singleton.mp hq']
      exact hapart q hq
    · rw [List.mem_singleton.mp hq]
      exact (hapart q' hq').symm
    · rw [List.mem_singleton.mp hq, List.mem_singleton.mp hq'] at hne
      exact absurd rfl hne
  · intro hh
    cases hg.head.symm.trans hh
  · intro q hq
    cases hg.head.symm.trans hq
    rw [hcur, hend, hsize]
    omega
  · intro r hr
    rcases List.mem_append.mp hr with hr | hr
    · exact hp.aligned r hr
    · rw [List.mem_singleton.mp hr]
      exact hdvd
  · intro r hr
    rcases List.mem_append.mp hr with hr | hr
    · obtain ⟨q, hq, hwithin, -⟩ := hp.within r hr
      refine ⟨q, List.mem_append_left _ hq, by rwa [hdata q hq], ?_⟩
      intro hh
      cases hg.head.symm.trans hh
      exact absurd hq hptr
    · rw [List.mem_singleton.mp hr]
      exact ⟨ptr, List.mem_append_right _ (List.mem_singleton_self _), hin, fun _ => hcur.ge⟩
  · rw [List.pairwise_append]
    refine ⟨hp.disjoint, List.pairwise_singleton _ _, ?_⟩
    intro r hr s hs
    rw [List.mem_singleton.mp hs]
    obtain ⟨q, hq, hwithin, -⟩ := hp.within r hr
    rw [← hdata q hq] at hwithin
    exact (hapart q hq).mono hwithin hin

theorem recycle {first : Nat} (hp : Placed h o l a) (hr : Recycled h a first h' a') :
    Placed h' o [] a' := by
  have hfo : first ∈ o := by
    obtain ⟨c, hc, hco, -⟩ := hp.chained.chain
    apply hco
    apply List.mem_of_mem_head?
    rw [← hc.head_eq, hr.firstBlock]
    rfl
  have hdata : ∀ q, data h' q = data h q := by
    intro q
    unfold data
    rw [hr.sizes]
  have hb := hp.bound first hfo
  refine ⟨hp.chained.recycle hr, ?_, ?_, ?_, ?_, ?_, by simp, by simp, List.Pairwise.nil⟩
  · intro q hq
    rw [hr.sizes, hr.allocated]
    exact hp.regions q hq
  · intro q hq
    rw [hr.sizes]
    exact hp.bound q hq
  · intro q hq q' hq' hne
    rw [hdata, hdata]
    exact hp.apart q hq q' hq' hne
  · intro hh
    rw [hr.arena] at hh
    cases hh
  · intro q hq
    rw [hr.arena] at hq
    cases hq
    rw [hr.arena, hr.sizes]
    simp only [sizeofBlock, dataOffset] at *
    omega

theorem kept : Kept (fun _ a size alignment => Request a size alignment) Placed where
  chained hp := hp.chained
  frame := frame
  empty := empty
  bump hp hreq hfit := hp.bump hreq.pow_two hreq.noWrap.1 hreq.noWrap.2.1
    (hp.head_of_fits hreq.size_pos hreq.noWrap.2.1 hfit) hfit
  grow hp hreq hfit hg :=
    hp.grow hreq.pow_two (hreq.noWrap.2.2 hfit).1 (hreq.noWrap.2.2 hfit).2 hg
  forget := forget
  recycle := recycle

end Placed

/-- Every range an arena has returned since its last `reset` is aligned as requested, lies in the
data area of one block from `malloc`, and overlaps no other live range of any arena. -/
structure RangesOk (w : World) : Prop where
  aligned : ∀ i, ∀ r ∈ w.live i, r.alignment ∣ r.base
  inBlock : ∀ i, ∀ r ∈ w.live i, ∃ q bytes, ⟨q, bytes⟩ ∈ w.heap.allocated ∧
    r.Within (data w.heap q) ∧ (data w.heap q).Within ⟨q, bytes⟩
  disjoint : ∀ i, (w.live i).Pairwise fun r s => r.Disjoint s.toRegion
  disjointOther : ∀ i j, i ≠ j → ∀ r ∈ w.live i, ∀ s ∈ w.live j, r.Disjoint s.toRegion

theorem rangesOk_of_requests (ndebug : Bool) (w : World)
    (hr : (World.system ndebug).ReachableUnder
      (Admits fun _ a size alignment => Request a size alignment) w) : RangesOk w := by
  obtain ⟨hs, hw⟩ := Placed.kept.invariant hr
  have hplaced : ∀ i, ∀ r ∈ w.live i, ∃ a, Placed w.heap (w.owned i) (w.live i) a := by
    intro i r hri
    cases ha : w.arenas i with
    | none =>
      rw [(hs.absent i ha).2] at hri
      cases hri
    | some a => exact ⟨a, hw i a ha⟩
  refine ⟨?_, ?_, ?_, ?_⟩
  · intro i r hri
    obtain ⟨a, hp⟩ := hplaced i r hri
    exact hp.aligned r hri
  · intro i r hri
    obtain ⟨a, hp⟩ := hplaced i r hri
    obtain ⟨q, hq, hwithin, -⟩ := hp.within r hri
    exact ⟨q, _, hp.regions q hq, hwithin, data_within q⟩
  · intro i
    cases hl : w.live i with
    | nil => exact List.Pairwise.nil
    | cons r rs =>
      obtain ⟨a, hp⟩ := hplaced i r (by rw [hl]; simp)
      exact hl ▸ hp.disjoint
  · intro i j hij r hri s hsj
    obtain ⟨a, hp⟩ := hplaced i r hri
    obtain ⟨b, hp'⟩ := hplaced j s hsj
    obtain ⟨q, hq, hwithin, -⟩ := hp.within r hri
    obtain ⟨q', hq', hwithin', -⟩ := hp'.within s hsj
    have hne : q ≠ q' := by
      rintro rfl
      exact hs.apart i j hij q hq hq'
    have hsymm : Std.Symm fun r s : Region => r.base ≠ s.base ∧ r.Disjoint s :=
      ⟨fun _ _ hrs => ⟨hrs.1.symm, hrs.2.symm⟩⟩
    have hreg := hs.regions.forall (hp.regions q hq) (hp'.regions q' hq') (by simp [hne])
    exact hreg.2.mono (hwithin.trans (data_within q)) (hwithin'.trans (data_within q'))

instance (a : ArenaAllocator) (size alignment : Nat) : Decidable (Request a size alignment) :=
  have : Decidable (Fits a size alignment) := inferInstanceAs (Decidable (_ ≤ _))
  have : Decidable (NoWrap a size alignment) := inferInstanceAs (Decidable (_ ∧ _ ∧ (¬ _ → _ ∧ _)))
  decidable_of_iff (0 < size ∧ (∃ k < 64, alignment = 2^k) ∧ NoWrap a size alignment)
    ⟨fun h => ⟨h.1, h.2.1, h.2.2⟩, fun h => ⟨h.size_pos, h.pow_two, h.noWrap⟩⟩

/-- Two arenas: one overflows its block and is reset, then its blocks move to the other. -/
def twoArenas : List Action :=
  [.create 0 64, .allocate 0 40 16 4096, .construct 0 40 8 8192, .create 1 64,
    .allocate 1 100 256 16384, .reset 0, .allocate 0 24 4 0, .allocate 0 8 8 0, .moveAssign 1 0,
    .allocate 1 16 16 0, .allocate 0 1 1 32768]

theorem rangesOk_of_requests_twoArenas :
    ∃ w, (World.system false).run World.initial twoArenas = some w ∧ RangesOk w ∧
      w.live 1 = [⟨⟨4128, 24⟩, 4⟩, ⟨⟨4152, 8⟩, 8⟩, ⟨⟨4160, 16⟩, 16⟩] ∧
      w.live 0 = [⟨⟨32800, 1⟩, 1⟩] := by
  have hrun : ((World.system false).run World.initial twoArenas).map
      (fun w => (w.live 1, w.live 0)) =
        some ([⟨⟨4128, 24⟩, 4⟩, ⟨⟨4152, 8⟩, 8⟩, ⟨⟨4160, 16⟩, 16⟩], [⟨⟨32800, 1⟩, 1⟩]) := by
    decide +kernel
  obtain ⟨w, hw, hl⟩ := Option.map_eq_some_iff.mp hrun
  simp only [Prod.mk.injEq] at hl
  refine ⟨w, hw, rangesOk_of_requests false w ?_, hl.1, hl.2⟩
  refine System.ReachableUnder.run (.init rfl) ?_ hw
  decide +kernel

end Jellybean.Memory
