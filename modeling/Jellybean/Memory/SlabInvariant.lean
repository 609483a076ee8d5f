import Jellybean.Framework.Custody
import Jellybean.Memory.Slab

namespace Jellybean.Memory.Slab

variable {α : Type} {T : Params α} {m m' : Storage α} {a a' b : SlabAllocator}
  {free live : List SlotPtr} {p : SlotPtr} {chunk : Nat}

/-- The slot lies in a chunk of the allocator. -/
def Owns (T : Params α) (a : SlabAllocator) (p : SlotPtr) : Prop :=
  p.chunk ∈ a.chunks ∧ p.index < T.chunkObjects

/-- `free` is the free list, and no slot of it is free twice or live. -/
structure Holds (T : Params α) (m : Storage α) (a : SlabAllocator) (free live : List SlotPtr) :
    Prop where
  chunks : ∀ c ∈ a.chunks, c ∈ m.chunks
  linked : Linked (m.next T) a.freeListHead free
  nodup : (free ++ live).Nodup
  owns : ∀ q ∈ free ++ live, Owns T a q

/-! The storage. -/

@[simp] theorem set_chunks (s : Slot α) : (m.set p s).chunks = m.chunks := rfl

theorem next_set_nextFree (q : Option SlotPtr) :
    (m.set p (.nextFree q)).next T = Function.update (m.next T) p q := by
  funext x
  by_cases hx : x = p
  · subst hx
    simp [Storage.next, Storage.set]
  · simp [Storage.next, Storage.set, hx]

theorem next_set_of_ne {q : SlotPtr} (s : Slot α) (hq : q ≠ p) :
    (m.set p s).next T q = m.next T q := by
  simp [Storage.next, Storage.set, hq]

/-! The slots of a new chunk, last one first. -/

def newSlots (chunk n : Nat) : List SlotPtr := (List.range n).reverse.map fun i => ⟨chunk, i⟩

theorem mem_newSlots {n : Nat} : p ∈ newSlots chunk n ↔ p.chunk = chunk ∧ p.index < n := by
  obtain ⟨c, i⟩ := p
  simp only [newSlots, List.mem_map, List.mem_reverse, List.mem_range, SlotPtr.mk.injEq]
  constructor
  · rintro ⟨j, hj, rfl, rfl⟩
    exact ⟨rfl, hj⟩
  · rintro ⟨rfl, hi⟩
    exact ⟨i, hi, rfl, rfl⟩

theorem newSlots_succ (n : Nat) : newSlots chunk (n + 1) = ⟨chunk, n⟩ :: newSlots chunk n := by
  simp [newSlots, List.range_succ]

theorem nodup_newSlots (n : Nat) : (newSlots chunk n).Nodup := by
  induction n with
  | zero => exact List.nodup_nil
  | succ n ih =>
    rw [newSlots_succ, List.nodup_cons, mem_newSlots]
    exact ⟨fun h => absurd h.2 (Nat.lt_irrefl n), ih⟩

@[simp] theorem length_newSlots (chunk n : Nat) : (newSlots chunk n).length = n := by
  simp [newSlots]

/-- The loop of `allocate_chunk` pushes the slots in front of the list. -/
theorem chainSlots_spec (chunk n : Nat) (h : Linked (m.next T) a.freeListHead free)
    (hc : ∀ q ∈ free, q.chunk ≠ chunk) :
    let r := SlabAllocator.chainSlots chunk n (m, a)
    Linked (r.1.next T) r.2.freeListHead (newSlots chunk n ++ free) ∧
      r.1.chunks = m.chunks ∧ r.2.chunks = a.chunks ∧
      ∀ q, q.chunk ≠ chunk → r.1.slot q = m.slot q := by
  induction n with
  | zero => exact ⟨h, rfl, rfl, fun _ _ => rfl⟩
  | succ n ih =>
    have hstep : SlabAllocator.chainSlots chunk (n + 1) (m, a) =
        SlabAllocator.push (SlabAllocator.chainSlots chunk n (m, a)) ⟨chunk, n⟩ := by
      simp [SlabAllocator.chainSlots, List.range_succ]
    obtain ⟨hl, hm, ha, hs⟩ := ih
    rw [hstep]
    refine ⟨?_, hm, ha, ?_⟩
    · rw [newSlots_succ]
      simp only [SlabAllocator.push, next_set_nextFree]
      apply hl.push
      rw [List.mem_append, mem_newSlots]
      rintro (hn | hf)
      · exact absurd hn.2 (Nat.lt_irrefl n)
      · exact hc _ hf rfl
    · intro q hq
      have hne : q ≠ ⟨chunk, n⟩ := by
        rintro rfl
        exact hq rfl
      simp only [SlabAllocator.push, Storage.set, Function.update_of_ne hne]
      exact hs q hq

/-- The storages agree on the chunks of `a`. -/
structure Agree (m m' : Storage α) (a : SlabAllocator) : Prop where
  slot : ∀ q, q.chunk ∈ a.chunks → m'.slot q = m.slot q
  chunks : ∀ c ∈ a.chunks, c ∈ m.chunks → c ∈ m'.chunks

theorem Agree.refl (m : Storage α) (a : SlabAllocator) : Agree m m a :=
  ⟨fun _ _ => rfl, fun _ _ h => h⟩

theorem agree_set {s : Slot α} (hp : p.chunk ∉ b.chunks) : Agree m (m.set p s) b := by
  refine ⟨?_, fun _ _ h => h⟩
  intro q hq
  apply Function.update_of_ne
  rintro rfl
  exact hp hq

namespace Holds

theorem frame (h : Holds T m a free live) (hag : Agree m m' a) : Holds T m' a free live := by
  refine ⟨?_, ?_, h.nodup, h.owns⟩
  · intro c hc
    exact hag.chunks c hc (h.chunks c hc)
  · apply h.linked.congr
    intro q hq
    unfold Storage.next
    rw [hag.slot q (h.owns q (List.mem_append_left _ hq)).1]

theorem empty : Holds T m {} [] [] := ⟨by simp, rfl, List.nodup_nil, by simp⟩

/-- A new chunk when the free list is empty. -/
theorem allocateChunk (h : Holds T m a [] live) (hr : a.allocateChunk T m chunk = some (m', a')) :
    Holds T m' a' (newSlots chunk T.chunkObjects) live ∧ a'.chunks = a.chunks ++ [chunk] ∧
      chunk ∉ m.chunks ∧ ∀ b : SlabAllocator, (∀ c ∈ b.chunks, c ∈ m.chunks) → Agree m m' b := by
  unfold SlabAllocator.allocateChunk at hr
  split_ifs at hr with hmem
  have hlink : Linked (Storage.next T { m with chunks := m.chunks ++ [chunk] }) a.freeListHead [] :=
    h.linked
  obtain ⟨hl, hm, ha, hs⟩ := chainSlots_spec chunk T.chunkObjects hlink (by simp)
  have heq := Option.some.inj hr
  simp only [Prod.mk.injEq] at heq
  obtain ⟨rfl, rfl⟩ := heq
  rw [List.append_nil] at hl
  refine ⟨⟨?_, hl, ?_, ?_⟩, by rw [ha], hmem, ?_⟩
  · intro c hc
    rw [ha] at hc
    rw [hm]
    rcases List.mem_append.mp hc with hc | hc
    · exact List.mem_append_left _ (h.chunks c hc)
    · exact List.mem_append_right _ hc
  · rw [List.nodup_append']
    refine ⟨nodup_newSlots _, h.nodup, ?_⟩
    intro q hq hq'
    have hc := (h.owns q hq').1
    rw [(mem_newSlots.mp hq).1] at hc
    exact hmem (h.chunks chunk hc)
  · intro q hq
    unfold Owns
    rw [ha, List.mem_append]
    rcases List.mem_append.mp hq with hq | hq
    · obtain ⟨h1, h2⟩ := mem_newSlots.mp hq
      exact ⟨.inr (by simp [h1]), h2⟩
    · exact ⟨.inl (h.owns q hq).1, (h.owns q hq).2⟩
  · intro b hb
    refine ⟨?_, ?_⟩
    · intro q hq
      rw [hs q fun hc => hmem (hc ▸ hb _ hq)]
    · intro c hc hcm
      rw [hm]
      exact List.mem_append_left _ hcm

/-- Taking the head of the free list. -/
theorem pop (h : Holds T m a (p :: free) live) (v : α) :
    Holds T (m.set p (.storage v)) { a with freeListHead := m.next T p } free (p :: live) := by
  obtain ⟨hc, hl, hn, ho⟩ := h
  refine ⟨hc, ?_, ?_, ?_⟩
  · apply hl.2.congr
    intro q hq
    apply next_set_of_ne
    rintro rfl
    exact (List.nodup_cons.mp hn).1 (List.mem_append_left _ hq)
  · exact (List.nodup_middle).mpr hn
  · intro q hq
    apply ho q
    simp only [List.mem_append, List.mem_cons] at hq ⊢
    tauto

/-- The constructor throws: the slot is neither free nor live. -/
theorem lose (h : Holds T m a (p :: free) live) :
    Holds T m { a with freeListHead := m.next T p } free live := by
  obtain ⟨hc, hl, hn, ho⟩ := h
  exact ⟨hc, hl.2, (List.nodup_cons.mp hn).2, fun q hq => ho q (List.mem_cons_of_mem _ hq)⟩

/-- Giving a live slot back. -/
theorem push (h : Holds T m a free live) (hp : p ∈ live) :
    Holds T (m.set p (.nextFree a.freeListHead)) { a with freeListHead := some p } (p :: free)
      (live.filter (· ≠ p)) := by
  obtain ⟨hc, hl, hn, ho⟩ := h
  obtain ⟨hnf, hnl, hd⟩ := List.nodup_append'.mp hn
  have hpf : p ∉ free := fun hf => hd hf hp
  refine ⟨hc, ?_, ?_, ?_⟩
  · rw [next_set_nextFree]
    exact hl.push hpf
  · rw [List.cons_append, List.nodup_cons, List.nodup_append']
    refine ⟨?_, hnf, hnl.filter _, ?_⟩
    · simp [hpf]
    · intro q hq hq'
      exact hd hq (List.mem_of_mem_filter hq')
  · intro q hq
    apply ho q
    simp only [List.cons_append, List.mem_cons, List.mem_append, List.mem_filter] at hq ⊢
    rcases hq with rfl | hq | hq
    · exact .inr hp
    · exact .inl hq
    · exact .inr hq.1

end Holds

theorem Holds.refill (h : Holds T m a free live) (hr : a.refill T m chunk = some (m', a')) :
    (m' = m ∧ a' = a) ∨ (free = [] ∧ Holds T m' a' (newSlots chunk T.chunkObjects) live ∧
      a'.chunks = a.chunks ++ [chunk] ∧ chunk ∉ m.chunks ∧
      ∀ b : SlabAllocator, (∀ c ∈ b.chunks, c ∈ m.chunks) → Agree m m' b) := by
  unfold SlabAllocator.refill at hr
  split_ifs at hr with hn
  · right
    have hl := h.linked
    rw [hn] at hl
    cases hl.eq_nil
    obtain ⟨h1, h2, h3, h4⟩ := h.allocateChunk hr
    exact ⟨rfl, h1, h2, h3, h4⟩
  · cases hr
    exact .inl ⟨rfl, rfl⟩

theorem allocate_cases {object : Option α} {r : Storage α × SlabAllocator × Option SlotPtr}
    (hr : a.allocate T m object chunk = some r) :
    ∃ m₁ a₁ slot, a.refill T m chunk = some (m₁, a₁) ∧ a₁.freeListHead = some slot ∧
      ((∃ v, object = some v ∧
          r = (m₁.set slot (.storage v), { a₁ with freeListHead := m₁.next T slot }, some slot)) ∨
        (object = none ∧ r = (m₁, { a₁ with freeListHead := m₁.next T slot }, none))) := by
  obtain ⟨⟨m₁, a₁⟩, hfill, hmap⟩ := Option.bind_eq_some_iff.mp hr
  obtain ⟨slot, hslot, rfl⟩ := Option.map_eq_some_iff.mp hmap
  refine ⟨m₁, a₁, slot, hfill, hslot, ?_⟩
  cases object with
  | some v => exact .inl ⟨v, rfl, rfl⟩
  | none => exact .inr ⟨rfl, rfl⟩

theorem Holds.cons_of_head (h : Holds T m a free live) (hp : a.freeListHead = some p) :
    ∃ rest, free = p :: rest := by
  have hh := h.linked.head_eq
  rw [hp] at hh
  exact ⟨free.tail, (List.cons_head?_tail hh.symm).symm⟩

/-! Invariants of one allocator, and what other allocators can do to it. -/

/-- `P` is an invariant of an allocator as long as the constructions satisfy `C`. -/
structure Kept (T : Params α) (C : Option α → Prop)
    (P : Storage α → SlabAllocator → List SlotPtr → Nat → Prop) : Prop where
  holds : ∀ {m a l k}, P m a l k → ∃ free, Holds T m a free l
  frame : ∀ {m m' a l k}, P m a l k → Agree m m' a → P m' a l k
  empty : ∀ {m}, P m {} [] 0
  allocate : ∀ {m a l k object chunk r}, P m a l k → C object →
    a.allocate T m object chunk = some r →
    P r.1 r.2.1 (r.2.2.toList ++ l) (max k (r.2.2.toList ++ l).length)
  deallocate : ∀ {m a l k p}, P m a l k → p ∈ l →
    P (m.set p (.nextFree a.freeListHead)) { a with freeListHead := some p } (l.filter (· ≠ p)) k

/-- No chunk has two owners. -/
structure Separate (w : World α) : Prop where
  absent : ∀ i, w.slabs i = none → w.live i = []
  apart : ∀ i j a b, i ≠ j → w.slabs i = some a → w.slabs j = some b →
    ∀ c ∈ a.chunks, c ∉ b.chunks

def Each (P : Storage α → SlabAllocator → List SlotPtr → Nat → Prop) (w : World α) : Prop :=
  ∀ i a, w.slabs i = some a → P w.storage a (w.live i) (w.maxLive i)

/-- Constructions satisfy `C`, and an allocator is moved from only when its free list is empty. -/
def Admits (C : Option α → Prop) (w : World α) : Action α → Prop
  | .allocate _ object _ => C object
  | .moveConstruct _ source | .moveAssign _ source =>
    ∀ b, w.slabs source = some b → b.freeListHead = none
  | _ => True

variable {C : Option α → Prop} {P : Storage α → SlabAllocator → List SlotPtr → Nat → Prop}
  {w t : World α} {i j : Nat}

/-- One allocator acts: the others keep their chunks. -/
theorem Each.update (K : Kept T C P) (hw : Each P w)
    (hag : ∀ j b, j ≠ i → w.slabs j = some b → Agree w.storage t.storage b)
    (hj : ∀ j, j ≠ i → t.slabs j = w.slabs j ∧ t.live j = w.live j ∧ t.maxLive j = w.maxLive j)
    (hi : ∀ a, t.slabs i = some a → P t.storage a (t.live i) (t.maxLive i)) : Each P t := by
  intro j b hb
  by_cases hji : j = i
  · subst hji
    exact hi b hb
  · obtain ⟨h1, h2, h3⟩ := hj j hji
    rw [h1] at hb
    rw [h2, h3]
    exact K.frame (hw j b hb) (hag j b hji hb)

theorem Separate.chunksApart (hs : Separate w) :
    Apart fun j c => ∃ a, w.slabs j = some a ∧ c ∈ a.chunks := by
  rintro j k c hjk ⟨a, ha, hca⟩ ⟨b, hb, hcb⟩
  exact hs.apart j k a b hjk ha hb c hca hcb

theorem Separate.update (hs : Separate w)
    (hj : ∀ j, j ≠ i → t.slabs j = w.slabs j ∧ t.live j = w.live j ∧ t.maxLive j = w.maxLive j)
    (hi : t.slabs i = none → t.live i = [])
    (hc : ∀ j a b, j ≠ i → t.slabs i = some a → w.slabs j = some b → ∀ c ∈ a.chunks, c ∉ b.chunks) :
    Separate t := by
  refine ⟨?_, ?_⟩
  · intro j hn
    by_cases hji : j = i
    · exact hji ▸ hi (hji ▸ hn)
    · obtain ⟨h1, h2, -⟩ := hj j hji
      rw [h2]
      exact hs.absent j (h1 ▸ hn)
  · have hapart : Apart fun j c => ∃ a, t.slabs j = some a ∧ c ∈ a.chunks := by
      apply hs.chunksApart.update (i := i)
      · intro j c hji hheld
        rwa [(hj j hji).1] at hheld
      · rintro j c hji ⟨a, ha, hca⟩ ⟨b, hb, hcb⟩
        exact hc j a b hji ha hb c hca hcb
    intro j k a b hjk ha hb c hca hcb
    exact hapart j k c hjk ⟨a, ha, hca⟩ ⟨b, hb, hcb⟩

/-- What an allocation does to another allocator. -/
theorem allocate_agree {object : Option α} {r : Storage α × SlabAllocator × Option SlotPtr}
    (h : Holds T m a free live) (hr : a.allocate T m object chunk = some r)
    (hb : ∀ c ∈ b.chunks, c ∈ m.chunks) (hd : ∀ c ∈ a.chunks, c ∉ b.chunks) :
    Agree m r.1 b ∧ ∀ c ∈ r.2.1.chunks, c ∉ b.chunks := by
  obtain ⟨m₁, a₁, slot, hfill, hslot, hcase⟩ := allocate_cases hr
  have key : Agree m m₁ b ∧ (∀ c ∈ a₁.chunks, c ∉ b.chunks) ∧ slot.chunk ∈ a₁.chunks := by
    rcases h.refill hfill with ⟨rfl, rfl⟩ | ⟨-, h₁, hch, hfresh, hag⟩
    · obtain ⟨rest, rfl⟩ := h.cons_of_head hslot
      exact ⟨Agree.refl _ _, hd, (h.owns slot (by simp)).1⟩
    · refine ⟨hag b hb, ?_, ?_⟩
      · intro c hc
        rw [hch] at hc
        rcases List.mem_append.mp hc with hc | hc
        · exact hd c hc
        · rw [List.mem_singleton.mp hc]
          exact fun hcb => hfresh (hb _ hcb)
      · obtain ⟨rest, hrest⟩ := h₁.cons_of_head hslot
        exact (h₁.owns slot (by rw [hrest]; simp)).1
  obtain ⟨hag, hdis, hsc⟩ := key
  rcases hcase with ⟨v, -, rfl⟩ | ⟨-, rfl⟩
  · have hset : Agree m₁ (m₁.set slot (.storage v)) b := agree_set (hdis _ hsc)
    refine ⟨⟨?_, ?_⟩, hdis⟩
    · intro q hq
      exact (hset.slot q hq).trans (hag.slot q hq)
    · intro c hc hcm
      exact hset.chunks c hc (hag.chunks c hc hcm)
  · exact ⟨hag, hdis⟩

theorem freeChunks_agree (hd : ∀ c ∈ a.chunks, c ∉ b.chunks) : Agree m (m.freeChunks a.chunks) b := by
  refine ⟨fun _ _ => rfl, ?_⟩
  intro c hc hcm
  apply List.mem_filter.mpr
  refine ⟨hcm, ?_⟩
  simp only [decide_eq_true_eq]
  exact fun hca => hd c hca hc

variable {source : Nat}

theorem movedFrom_eq (hn : b.freeListHead = none) : b.movedFrom = {} := by
  simp [SlabAllocator.movedFrom, hn]

theorem Each.transfer (K : Kept T C P) (hw : Each P w)
    (hag : ∀ j c, j ≠ i → w.slabs j = some c → Agree w.storage m c)
    (hb : w.slabs source = some b) (hn : b.freeListHead = none) :
    Each P (w.transfer m i source b) := by
  intro j c hc
  by_cases hjs : j = source
  · subst hjs
    simp only [World.transfer, Function.update_self, Option.some.injEq] at hc ⊢
    rw [← hc, movedFrom_eq hn]
    exact K.empty
  · by_cases hji : j = i
    · subst hji
      simp only [World.transfer, Function.update_of_ne hjs, Function.update_self,
        Option.some.injEq] at hc ⊢
      subst hc
      exact K.frame (hw source b hb) (hag source b (Ne.symm hjs) hb)
    · simp only [World.transfer, Function.update_of_ne hjs, Function.update_of_ne hji] at hc ⊢
      exact K.frame (hw j c hc) (hag j c hji hc)

theorem Separate.transfer (hs : Separate w) (hb : w.slabs source = some b)
    (hn : b.freeListHead = none) : Separate (w.transfer m i source b) := by
  refine ⟨?_, ?_⟩
  · intro j hj
    by_cases hjs : j = source
    · simp [World.transfer, hjs] at hj
    · by_cases hji : j = i
      · rw [hji] at hj hjs
        simp [World.transfer, Function.update_of_ne hjs] at hj
      · simp only [World.transfer, Function.update_of_ne hjs, Function.update_of_ne hji] at hj ⊢
        exact hs.absent j hj
  · -- nothing is left at `source`, and `i` has the chunks that were there
    have hapart : Apart fun j c => ∃ a, (w.transfer m i source b).slabs j = some a ∧
        c ∈ a.chunks := by
      apply hs.chunksApart.handOver i source
      · rintro c ⟨a, ha, hca⟩
        simp only [World.transfer, Function.update_self, Option.some.injEq] at ha
        rw [← ha, movedFrom_eq hn] at hca
        cases hca
      · rintro his c ⟨a, ha, hca⟩
        refine ⟨a, ?_, hca⟩
        rw [hb]
        simpa [World.transfer, his] using ha
      · rintro j c hji hjs ⟨a, ha, hca⟩
        exact ⟨a, by simpa [World.transfer, hji, hjs] using ha, hca⟩
    intro j k x y hjk hx hy c hcx hcy
    exact hapart j k c hjk ⟨x, hx, hcx⟩ ⟨y, hy, hcy⟩

/-- The step lemma for all invariants of this kind. -/
theorem Kept.step (K : Kept T C P) {x : Action α} (hw : Separate w ∧ Each P w)
    (hx : Admits C w x) (ht : World.step T w x = some t) : Separate t ∧ Each P t := by
  obtain ⟨hs, hw⟩ := hw
  have hchunks : ∀ j b, w.slabs j = some b → ∀ c ∈ b.chunks, c ∈ w.storage.chunks := by
    intro j b hb
    obtain ⟨free, h⟩ := K.holds (hw j b hb)
    exact h.chunks
  cases x with
  | create i =>
    simp only [World.step] at ht
    split_ifs at ht with hn
    cases ht
    have hother : ∀ j, j ≠ i → Function.update w.slabs i (some {}) j = w.slabs j ∧
        w.live j = w.live j ∧ Function.update w.maxLive i 0 j = w.maxLive j := by
      intro j hji
      simp [hji]
    refine ⟨hs.update (i := i) hother ?_ ?_, hw.update K (i := i) ?_ hother ?_⟩
    · intro _
      exact hs.absent i hn
    · intro j a b _ ha _ c hc
      simp only [Function.update_self, Option.some.injEq] at ha
      subst ha
      cases hc
    · intro j b _ _
      exact Agree.refl _ _
    · intro a ha
      simp only [Function.update_self, Option.some.injEq] at ha ⊢
      rw [← ha, hs.absent i hn]
      exact K.empty
  | allocate i object chunk =>
    obtain ⟨a, ha, hmap⟩ := Option.bind_eq_some_iff.mp ht
    obtain ⟨r, hr, rfl⟩ := Option.map_eq_some_iff.mp hmap
    obtain ⟨free, h⟩ := K.holds (hw i a ha)
    have hother : ∀ j, j ≠ i → (w.allocated i r).slabs j = w.slabs j ∧
        (w.allocated i r).live j = w.live j ∧ (w.allocated i r).maxLive j = w.maxLive j := by
      intro j hji
      simp [World.allocated, hji]
    have hagree : ∀ j b, j ≠ i → w.slabs j = some b →
        Agree w.storage r.1 b ∧ ∀ c ∈ r.2.1.chunks, c ∉ b.chunks := by
      intro j b hji hb
      exact allocate_agree h hr (hchunks j b hb) (hs.apart i j a b hji.symm ha hb)
    refine ⟨hs.update (i := i) hother ?_ ?_, hw.update K (i := i) ?_ hother ?_⟩
    · intro hn
      simp [World.allocated] at hn
    · intro j a' b hji ha' hb
      simp only [World.allocated, Function.update_self, Option.some.injEq] at ha'
      rw [← ha']
      exact (hagree j b hji hb).2
    · intro j b hji hb
      exact (hagree j b hji hb).1
    · intro a' ha'
      simp only [World.allocated, Function.update_self, Option.some.injEq] at ha' ⊢
      rw [← ha']
      exact K.allocate (hw i a ha) hx hr
  | deallocate i ptr =>
    obtain ⟨a, ha, hif⟩ := Option.bind_eq_some_iff.mp ht
    split_ifs at hif with hlive
    cases hif
    cases ptr with
    | none =>
      have hsame : Function.update w.slabs i (some a) = w.slabs := by
        rw [← ha, Function.update_eq_self]
      have hkeep : Function.update w.live i ((w.live i).filter (some · ≠ none)) = w.live := by
        simp
      simp only [SlabAllocator.deallocate, hsame, hkeep]
      exact ⟨hs, hw⟩
    | some p =>
      have hpl := hlive p rfl
      obtain ⟨free, h⟩ := K.holds (hw i a ha)
      have hpc := (h.owns p (List.mem_append_right _ hpl)).1
      have hfilter : (w.live i).filter (fun q => some q ≠ some p) =
          (w.live i).filter (· ≠ p) := by
        simp
      simp only [SlabAllocator.deallocate, SlabAllocator.push, hfilter]
      have hother : ∀ j, j ≠ i →
          Function.update w.slabs i (some { a with freeListHead := some p }) j = w.slabs j ∧
          Function.update w.live i ((w.live i).filter (· ≠ p)) j = w.live j ∧
          w.maxLive j = w.maxLive j := by
        intro j hji
        simp [hji]
      refine ⟨hs.update (i := i) hother ?_ ?_, hw.update K (i := i) ?_ hother ?_⟩
      · intro hn
        simp at hn
      · intro j a' b hji ha' hb
        simp only [Function.update_self, Option.some.injEq] at ha'
        rw [← ha']
        exact hs.apart i j a b hji.symm ha hb
      · intro j b hji hb
        exact agree_set (hs.apart i j a b hji.symm ha hb p.chunk hpc)
      · intro a' ha'
        simp only [Function.update_self, Option.some.injEq] at ha' ⊢
        rw [← ha']
        exact K.deallocate (hw i a ha) hpl
  | moveConstruct i source =>
    simp only [World.step] at ht
    split_ifs at ht with hn
    obtain ⟨b, hb, rfl⟩ := Option.map_eq_some_iff.mp ht
    exact ⟨hs.transfer hb (hx b hb), hw.transfer K (fun _ _ _ _ => Agree.refl _ _) hb (hx b hb)⟩
  | moveAssign i source =>
    obtain ⟨a, ha, hmap⟩ := Option.bind_eq_some_iff.mp ht
    obtain ⟨b, hb, rfl⟩ := Option.map_eq_some_iff.mp hmap
    refine ⟨hs.transfer hb (hx b hb), hw.transfer K ?_ hb (hx b hb)⟩
    intro j c hji hc
    exact freeChunks_agree (hs.apart i j a c hji.symm ha hc)
  | destroy i =>
    obtain ⟨a, ha, rfl⟩ := Option.map_eq_some_iff.mp ht
    have hother : ∀ j, j ≠ i → Function.update w.slabs i none j = w.slabs j ∧
        Function.update w.live i [] j = w.live j ∧
        Function.update w.maxLive i 0 j = w.maxLive j := by
      intro j hji
      simp [hji]
    refine ⟨hs.update (i := i) hother ?_ ?_, hw.update K (i := i) ?_ hother ?_⟩
    · intro _
      simp
    · intro j a' b _ ha'
      simp at ha'
    · intro j b hji hb
      exact freeChunks_agree (hs.apart i j a b hji.symm ha hb)
    · intro a' ha'
      simp at ha'

theorem Kept.invariant (K : Kept T C P) (hr : (system T).ReachableUnder (Admits C) w) :
    Separate w ∧ Each P w := by
  apply hr.invariant (P := fun w => Separate w ∧ Each P w)
  · intro w hw
    rw [show w = World.initial from hw]
    refine ⟨⟨fun _ _ => rfl, ?_⟩, ?_⟩
    · intro i j a b _ ha
      cases ha
    · intro i a ha
      cases ha
  · intro w x t hw hx ht
    exact K.step hw hx ht

end Jellybean.Memory.Slab
