import Jellybean.Memory.SlabInvariant

namespace Jellybean.Memory.Slab

variable {α : Type} {T : Params α} {m m' : Storage α} {a a' : SlabAllocator}
  {live : List SlotPtr} {p : SlotPtr} {chunk peak : Nat}

def Sound (T : Params α) (m : Storage α) (a : SlabAllocator) (live : List SlotPtr) (_ : Nat) :
    Prop := ∃ free, Holds T m a free live

theorem Sound.allocate {object : Option α} {r : Storage α × SlabAllocator × Option SlotPtr}
    (h : Sound T m a live peak) (hr : a.allocate T m object chunk = some r) :
    Sound T r.1 r.2.1 (r.2.2.toList ++ live) (max peak (r.2.2.toList ++ live).length) := by
  obtain ⟨free, hh⟩ := h
  obtain ⟨m₁, a₁, slot, hfill, hslot, hcase⟩ := allocate_cases hr
  have h₁ : ∃ free₁, Holds T m₁ a₁ free₁ live := by
    rcases hh.refill hfill with ⟨rfl, rfl⟩ | ⟨-, h₁, -⟩
    · exact ⟨free, hh⟩
    · exact ⟨_, h₁⟩
  obtain ⟨free₁, h₁⟩ := h₁
  obtain ⟨rest, rfl⟩ := h₁.cons_of_head hslot
  rcases hcase with ⟨v, -, rfl⟩ | ⟨-, rfl⟩
  · exact ⟨rest, h₁.pop v⟩
  · exact ⟨rest, h₁.lose⟩

theorem Sound.kept : Kept T (fun _ => True) (Sound T) where
  holds h := h
  frame h hag := by
    obtain ⟨free, hh⟩ := h
    exact ⟨free, hh.frame hag⟩
  empty := ⟨[], Holds.empty⟩
  allocate h _ hr := h.allocate hr
  deallocate h hp := by
    obtain ⟨free, hh⟩ := h
    exact ⟨_, hh.push hp⟩

/-- A slot on a free list is on no other one and lies in a chunk of the allocator, and what an
allocator hands out lies in no chunk of another one. -/
structure Exclusive (T : Params α) (w : World α) : Prop where
  oneList : ∀ i j a b q, i ≠ j → w.slabs i = some a → w.slabs j = some b →
    OnList (w.storage.next T) a.freeListHead q → ¬ OnList (w.storage.next T) b.freeListHead q
  ownChunk : ∀ i a q, w.slabs i = some a → OnList (w.storage.next T) a.freeListHead q →
    q.chunk ∈ a.chunks
  handsOut : ∀ i j a b object chunk m' a' q, i ≠ j → w.slabs i = some a → w.slabs j = some b →
    a.allocate T w.storage object chunk = some (m', a', some q) → q.chunk ∉ b.chunks

def MovesEmpty (w : World α) (x : Action α) : Prop := Admits (fun _ => True) w x

instance (w : World α) : (x : Action α) → Decidable (MovesEmpty w x)
  | .moveConstruct _ source | .moveAssign _ source =>
    inferInstanceAs (Decidable (∀ b ∈ w.slabs source, b.freeListHead = none))
  | .create _ | .allocate .. | .deallocate .. | .destroy _ => .isTrue trivial

theorem exclusive_of_movesEmpty {w : World α} (hr : (system T).ReachableUnder MovesEmpty w) :
    Exclusive T w := by
  obtain ⟨hs, hw⟩ := Sound.kept.invariant hr
  refine ⟨?_, ?_, ?_⟩
  · intro i j a b q hij ha hb hqa hqb
    obtain ⟨free, h⟩ := hw i a ha
    obtain ⟨free', h'⟩ := hw j b hb
    rw [h.linked.onList_iff] at hqa
    rw [h'.linked.onList_iff] at hqb
    exact hs.apart i j a b hij ha hb q.chunk (h.owns q (List.mem_append_left _ hqa)).1
      (h'.owns q (List.mem_append_left _ hqb)).1
  · intro i a q ha hq
    obtain ⟨free, h⟩ := hw i a ha
    rw [h.linked.onList_iff] at hq
    exact (h.owns q (List.mem_append_left _ hq)).1
  · intro i j a b object chunk m' a' q hij ha hb hr
    obtain ⟨free, h⟩ := hw i a ha
    obtain ⟨free', h'⟩ := hw j b hb
    have hsound : Sound T w.storage a (w.live i) 0 := ⟨free, h⟩
    obtain ⟨rest, hq⟩ := hsound.allocate hr
    have hown : q.chunk ∈ a'.chunks := (hq.owns q (by simp)).1
    exact (allocate_agree h hr h'.chunks (hs.apart i j a b hij ha hb)).2 q.chunk hown

/-- A move that leaves a pointer behind breaks the property at once. -/
theorem movesEmpty_of_exclusive {w t : World α} {x : Action α} (ht : World.step T w x = some t)
    (he : Exclusive T t) : MovesEmpty w x := by
  have key : ∀ i source m b, w.slabs source = some b → t = w.transfer m i source b →
      b.freeListHead = none := by
    intro i source m b hb ht
    subst ht
    by_contra hne
    obtain ⟨q, hq⟩ := Option.ne_none_iff_exists'.mp hne
    have hsrc : (w.transfer m i source b).slabs source = some b.movedFrom := by
      simp [World.transfer]
    have hon : OnList ((w.transfer m i source b).storage.next T) b.freeListHead q := by
      rw [hq]
      exact .head q
    have := he.ownChunk source b.movedFrom q hsrc hon
    cases this
  cases x with
  | moveConstruct i source =>
    intro b hb
    simp only [World.step] at ht
    split_ifs at ht
    obtain ⟨b', hb', rfl⟩ := Option.map_eq_some_iff.mp ht
    cases hb.symm.trans hb'
    exact key i source w.storage b hb rfl
  | moveAssign i source =>
    intro b hb
    obtain ⟨a, ha, hmap⟩ := Option.bind_eq_some_iff.mp ht
    obtain ⟨b', hb', rfl⟩ := Option.map_eq_some_iff.mp hmap
    cases hb.symm.trans hb'
    exact key i source _ b hb rfl
  | create i => trivial
  | allocate i object chunk => trivial
  | deallocate i ptr => trivial
  | destroy i => trivial

theorem complies_of_exclusive {w t : World α} {as : List (Action α)}
    (hr : (system T).run w as = some t)
    (he : ∀ bs, bs <+: as → ∀ u, (system T).run w bs = some u → Exclusive T u) :
    (system T).Complies MovesEmpty w as := by
  induction as generalizing w with
  | nil => trivial
  | cons x xs ih =>
    obtain ⟨u, hu, hrun⟩ := Option.bind_eq_some_iff.mp hr
    refine ⟨?_, ?_⟩
    · apply movesEmpty_of_exclusive hu
      apply he [x] ⟨xs, rfl⟩ u
      rw [System.run_cons, hu]
      rfl
    · intro u' hu'
      cases hu.symm.trans hu'
      apply ih hrun
      intro bs hbs v hv
      apply he (x :: bs) (List.cons_prefix_cons.mpr ⟨rfl, hbs⟩) v
      rw [System.run_cons, hu]
      exact hv

/-- The defaulted moves copy `free_list_head_`: a run keeps the free lists apart exactly when every
allocator moved from has an empty one. -/
theorem exclusive_iff_movesEmpty (T : Params α) (as : List (Action α)) (t : World α)
    (hr : (system T).run World.initial as = some t) :
    (∀ bs, bs <+: as → ∀ w, (system T).run World.initial bs = some w → Exclusive T w) ↔
      (system T).Complies MovesEmpty World.initial as := by
  constructor
  · exact complies_of_exclusive hr
  · intro hc bs hbs w hw
    exact exclusive_of_movesEmpty (System.ReachableUnder.run (.init rfl) (hc.of_prefix hbs) hw)

/-- Both slots of the chunk are live when the allocator is moved. -/
def moveFull : List (Action Nat) :=
  [.create 0, .allocate 0 (some 10) 0, .allocate 0 (some 11) 1, .moveConstruct 1 0,
    .allocate 0 (some 12) 1, .deallocate 1 (some ⟨0, 0⟩)]

theorem exclusive_iff_movesEmpty_moveFull :
    ∃ w, (system pairs).run World.initial moveFull = some w ∧ w.live 0 = [⟨1, 1⟩] ∧
      Exclusive pairs w := by
  have hrun : ((system pairs).run World.initial moveFull).map (fun w => w.live 0) =
      some [⟨1, 1⟩] := by
    decide +kernel
  obtain ⟨w, hw, hl⟩ := Option.map_eq_some_iff.mp hrun
  refine ⟨w, hw, hl, (exclusive_iff_movesEmpty pairs moveFull w hw).mpr ?_ moveFull
    (List.prefix_refl _) w hw⟩
  decide +kernel

/-- One slot of the chunk is free when the allocator is moved. -/
def moveHalf : List (Action Nat) := [.create 0, .allocate 0 (some 10) 0, .moveConstruct 1 0]

theorem moveHalf_not_exclusive :
    ∃ w, (system pairs).Reachable w ∧ ¬ Exclusive pairs w := by
  have hrun : ((system pairs).run World.initial moveHalf).map (fun w => (w.slabs 0, w.slabs 1)) =
      some (some ⟨[], some ⟨0, 0⟩⟩, some ⟨[0], some ⟨0, 0⟩⟩) := by
    decide +kernel
  obtain ⟨w, hw, he⟩ := Option.map_eq_some_iff.mp hrun
  simp only [Prod.mk.injEq] at he
  refine ⟨w, System.Reachable.run (.init rfl) hw, ?_⟩
  intro hex
  exact hex.oneList 0 1 _ _ ⟨0, 0⟩ (by decide) he.1 he.2 (.head _) (.head _)

end Jellybean.Memory.Slab
