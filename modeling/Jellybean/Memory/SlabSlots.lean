import Jellybean.Memory.SlabInvariant

namespace Jellybean.Memory.Slab

variable {α : Type} {T : Params α} {m m' : Storage α} {a a' : SlabAllocator}
  {live : List SlotPtr} {p : SlotPtr} {chunk peak : Nat}

/-- Every slot of the chunks is free or live, and chunks were added only when all slots were live.
`peak` is the largest number of live objects so far. -/
def Full (T : Params α) (m : Storage α) (a : SlabAllocator) (live : List SlotPtr) (peak : Nat) :
    Prop :=
  ∃ free, Holds T m a free live ∧ (∀ q, Owns T a q → q ∈ free ++ live) ∧
    free.length + live.length = T.chunkObjects * a.chunks.length ∧ live.length ≤ peak ∧
    peak ≤ T.chunkObjects * a.chunks.length ∧
    T.chunkObjects * a.chunks.length < peak + T.chunkObjects

namespace Full

theorem frame (h : Full T m a live peak) (hag : Agree m m' a) : Full T m' a live peak := by
  obtain ⟨free, hh, hrest⟩ := h
  exact ⟨free, hh.frame hag, hrest⟩

theorem empty (hN : 0 < T.chunkObjects) : Full T m {} [] 0 := by
  refine ⟨[], Holds.empty, ?_, rfl, le_rfl, le_rfl, ?_⟩
  · intro q hq
    cases hq.1
  · simpa using hN

theorem allocate {object : Option α} {r : Storage α × SlabAllocator × Option SlotPtr}
    (h : Full T m a live peak) (ho : object.isSome = true)
    (hr : a.allocate T m object chunk = some r) :
    Full T r.1 r.2.1 (r.2.2.toList ++ live) (max peak (r.2.2.toList ++ live).length) := by
  obtain ⟨free, hh, hall, hcount, hlive, hpeak, hlast⟩ := h
  obtain ⟨m₁, a₁, slot, hfill, hslot, ⟨v, rfl, rfl⟩ | ⟨rfl, -⟩⟩ := allocate_cases hr
  · rcases hh.refill hfill with ⟨rfl, rfl⟩ | ⟨rfl, h₁, hch, -, -⟩
    · obtain ⟨rest, rfl⟩ := hh.cons_of_head hslot
      refine ⟨rest, hh.pop v, ?_, ?_, ?_, ?_, ?_⟩
      · intro q hq
        have hmem := hall q hq
        simp only [Option.toList_some, List.cons_append, List.nil_append, List.mem_cons,
          List.mem_append] at hmem ⊢
        tauto
      all_goals
        simp only [Option.toList_some, List.cons_append, List.nil_append, List.length_cons]
          at hcount ⊢
        omega
    · -- all slots of the old chunks are live
      obtain ⟨rest, hrest⟩ := h₁.cons_of_head hslot
      have hlen := length_newSlots chunk T.chunkObjects
      rw [hrest] at h₁ hlen
      have hmul : T.chunkObjects * a₁.chunks.length =
          T.chunkObjects * a.chunks.length + T.chunkObjects := by
        rw [hch, List.length_append, List.length_singleton, Nat.mul_add, Nat.mul_one]
      refine ⟨rest, h₁.pop v, ?_, ?_, ?_, ?_, ?_⟩
      · intro q hq
        have hq' : q ∈ slot :: rest ∨ q ∈ live := by
          obtain ⟨hqc, hqi⟩ := hq
          rw [hch, List.mem_append] at hqc
          rcases hqc with hqc | hqc
          · right
            simpa using hall q ⟨hqc, hqi⟩
          · left
            rw [← hrest, mem_newSlots]
            exact ⟨List.mem_singleton.mp hqc, hqi⟩
        simp only [Option.toList_some, List.cons_append, List.nil_append, List.mem_cons,
          List.mem_append] at hq' ⊢
        tauto
      all_goals
        simp only [Option.toList_some, List.cons_append, List.nil_append, List.length_cons,
          List.length_nil, hmul] at hcount hlen ⊢
        omega
  · cases ho

theorem deallocate (h : Full T m a live peak) (hp : p ∈ live) :
    Full T (m.set p (.nextFree a.freeListHead)) { a with freeListHead := some p }
      (live.filter (· ≠ p)) peak := by
  obtain ⟨free, hh, hall, hcount, hlive, hpeak, hlast⟩ := h
  have hnd := (List.nodup_append'.mp hh.nodup).2.1
  have hlen : (live.filter (· ≠ p)).length + 1 = live.length := by
    have herase := hnd.erase_eq_filter p
    have hpos := List.length_pos_of_mem hp
    have hfe : live.filter (· ≠ p) = live.erase p := by
      rw [herase]
      apply List.filter_congr
      intro q _
      simp [bne, Bool.beq_eq_decide_eq]
    rw [hfe, List.length_erase_of_mem hp]
    omega
  refine ⟨p :: free, hh.push hp, ?_, ?_, ?_, hpeak, hlast⟩
  · intro q hq
    have hmem := hall q hq
    simp only [List.cons_append, List.mem_cons, List.mem_append, List.mem_filter,
      decide_eq_true_eq] at hmem ⊢
    tauto
  · simp only [List.length_cons]
    omega
  · omega

theorem kept (hN : 0 < T.chunkObjects) : Kept T (fun object => object.isSome = true) (Full T) where
  holds h := by
    obtain ⟨free, hh, -⟩ := h
    exact ⟨free, hh⟩
  frame := frame
  empty := empty hN
  allocate := allocate
  deallocate := deallocate

end Full

/-- The slots of one allocator in the state `w`. -/
structure SlotsOk (T : Params α) (w : World α) (i : Nat) (a : SlabAllocator)
    (free : List SlotPtr) : Prop where
  linked : Linked (w.storage.next T) a.freeListHead free
  distinct : free.Nodup ∧ (w.live i).Nodup
  free_iff : ∀ q, Owns T a q → (q ∈ free ↔ q ∉ w.live i)
  all : ∀ q, q ∈ free ∨ q ∈ w.live i ↔ Owns T a q
  count : free.length + (w.live i).length = T.chunkObjects * a.chunks.length
  returns : ∀ v, ∀ chunk ∉ w.storage.chunks, ∃ m' a' q,
    a.allocate T w.storage (some v) chunk = some (m', a', some q) ∧ q ∉ w.live i
  chunks : a.chunks.length = (w.maxLive i + T.chunkObjects - 1) / T.chunkObjects

/-- Allocators are not moved, and no constructor throws. -/
def Ordinary (_ : World α) : Action α → Prop
  | .allocate _ object _ => object.isSome = true
  | .moveConstruct .. | .moveAssign .. => False
  | _ => True

/-- `allocate` succeeds and hands out the head of the free list, or a slot of a new chunk. -/
theorem Holds.allocate_returns (hN : 0 < T.chunkObjects) {free : List SlotPtr}
    (h : Holds T m a free live) (v : α) (hchunk : chunk ∉ m.chunks) :
    ∃ m' a' q, a.allocate T m (some v) chunk = some (m', a', some q) ∧ q ∉ live := by
  have hfill : ∃ m₁ a₁ slot rest, a.refill T m chunk = some (m₁, a₁) ∧
      Holds T m₁ a₁ (slot :: rest) live := by
    cases hf : free with
    | nil =>
      have hn : a.freeListHead = none := by
        have hl := h.linked
        rw [hf] at hl
        exact hl
      have hr : ∃ r, a.allocateChunk T m chunk = some r := by
        unfold SlabAllocator.allocateChunk
        rw [if_neg hchunk]
        exact ⟨_, rfl⟩
      obtain ⟨⟨m₁, a₁⟩, hr⟩ := hr
      obtain ⟨n, hn'⟩ := Nat.exists_eq_succ_of_ne_zero hN.ne'
      have h₁ := (Holds.allocateChunk (hf ▸ h) hr).1
      rw [hn', newSlots_succ] at h₁
      refine ⟨m₁, a₁, _, _, ?_, h₁⟩
      unfold SlabAllocator.refill
      rw [if_pos hn, hr]
    | cons slot rest =>
      subst hf
      refine ⟨m, a, slot, rest, ?_, h⟩
      unfold SlabAllocator.refill
      rw [if_neg]
      rw [h.linked.1]
      simp
  obtain ⟨m₁, a₁, slot, rest, hr, h₁⟩ := hfill
  refine ⟨m₁.set slot (.storage v), { a₁ with freeListHead := m₁.next T slot }, slot, ?_, ?_⟩
  · simp only [SlabAllocator.allocate, hr, Option.bind_some, h₁.linked.1, Option.map_some]
  · intro hlive
    exact (List.nodup_cons.mp h₁.nodup).1 (List.mem_append_right _ hlive)

theorem slotsOk_of_ordinary (T : Params α) (hN : 1 ≤ T.chunkObjects) (w : World α)
    (hr : (system T).ReachableUnder Ordinary w) (i : Nat) (a : SlabAllocator)
    (ha : w.slabs i = some a) : ∃ free, SlotsOk T w i a free := by
  have hr' : (system T).ReachableUnder (Admits fun object => object.isSome = true) w := by
    apply hr.mono
    intro w x hx
    cases x with
    | allocate i object chunk => exact hx
    | moveConstruct i source => cases hx
    | moveAssign i source => cases hx
    | create i => trivial
    | deallocate i ptr => trivial
    | destroy i => trivial
  obtain ⟨-, hw⟩ := (Full.kept hN).invariant hr'
  obtain ⟨free, hh, hall, hcount, hlive, hpeak, hlast⟩ := hw i a ha
  obtain ⟨hnf, hnl, hd⟩ := List.nodup_append'.mp hh.nodup
  refine ⟨free, hh.linked, ⟨hnf, hnl⟩, ?_, ?_, hcount, ?_, ?_⟩
  · intro q hq
    constructor
    · intro hqf hql
      exact hd hqf hql
    · intro hql
      exact (List.mem_append.mp (hall q hq)).resolve_right hql
  · intro q
    rw [← List.mem_append]
    exact ⟨hh.owns q, hall q⟩
  · intro v chunk hchunk
    exact hh.allocate_returns hN v hchunk
  · symm
    apply Nat.div_eq_of_lt_le
    · rw [Nat.mul_comm]
      omega
    · rw [Nat.mul_comm, Nat.mul_add]
      omega

/-- The third object needs a second chunk. -/
def threeObjects : List (Action Nat) :=
  [.create 0, .allocate 0 (some 10) 0, .allocate 0 (some 11) 1, .allocate 0 (some 12) 1,
    .deallocate 0 (some ⟨0, 1⟩), .deallocate 0 none, .deallocate 0 (some ⟨1, 1⟩)]

theorem slotsOk_of_ordinary_threeObjects :
    ∃ w, (system pairs).run World.initial threeObjects = some w ∧ w.live 0 = [⟨0, 0⟩] ∧
      ∃ a, w.slabs 0 = some a ∧ ∃ free, SlotsOk pairs w 0 a free := by
  have hrun : ((system pairs).run World.initial threeObjects).map
      (fun w => (w.live 0, (w.slabs 0).map (·.chunks))) = some ([⟨0, 0⟩], some [0, 1]) := by
    decide +kernel
  obtain ⟨w, hw, he⟩ := Option.map_eq_some_iff.mp hrun
  simp only [Prod.mk.injEq] at he
  obtain ⟨hl, hs⟩ := he
  obtain ⟨a, ha, -⟩ := Option.map_eq_some_iff.mp hs
  refine ⟨w, hw, hl, a, ha, slotsOk_of_ordinary pairs (by decide) w ?_ 0 a ha⟩
  refine System.ReachableUnder.run (.init rfl) ?_ hw
  simp [threeObjects, System.Complies, Ordinary]

end Jellybean.Memory.Slab
