import Jellybean.Actor.Mailbox

namespace Jellybean.Actor

/-- The message stores what it carries: inline, or in a live buffer of the recorded size. -/
structure Holds (heap : Buffers) (m : Message) (c : Carried) : Prop where
  typeId : m.typeId = c.typeId
  senderShard : m.senderShard = c.senderShard
  senderId : m.senderId = c.senderId
  inline : m.isInline = true → ∀ v, c.value = some v →
    v.length ≤ 48 ∧ m.data.read 0 v.length = v
  heap : m.isInline = false → m.data.ptr ≠ 0 ∧ ∃ b, heap.blocks m.data.ptr = some b ∧
    m.data.size = b.content.length ∧ 48 < b.content.length ∧ c.value = some b.content

namespace Holds

variable {heap : Buffers} {m : Message} {c : Carried}

theorem frame (h : Holds heap m c) {heap' : Buffers}
    (heq : m.isInline = false → heap'.blocks m.data.ptr = heap.blocks m.data.ptr) :
    Holds heap' m c where
  typeId := h.typeId
  senderShard := h.senderShard
  senderId := h.senderId
  inline := h.inline
  heap := by
    intro hm
    rw [heq hm]
    exact h.heap hm

theorem as_eq (h : Holds heap m c) {v : List UInt8} (hv : c.value = some v) :
    m.as heap v.length = .ok v := by
  unfold Message.as
  cases hm : m.isInline with
  | true =>
    obtain ⟨hlen, hread⟩ := h.inline hm v hv
    rw [if_pos rfl, if_pos hlen, hread]
  | false =>
    obtain ⟨-, b, hb, -, -, hval⟩ := h.heap hm
    have : v = b.content := by
      rw [hval] at hv
      exact (Option.some.inj hv).symm
    subst this
    simp [load, hb]

/-- An inline message with the bytes of another. -/
theorem write_inline (h : Holds heap m c) (hm : m.isInline = true) (raw : Storage)
    (heap' : Buffers) : Holds heap' { m with data := raw.write 0 (m.data.read 0 48) } c where
  typeId := h.typeId
  senderShard := h.senderShard
  senderId := h.senderId
  inline := by
    intro _ v hv
    obtain ⟨hlen, hread⟩ := h.inline hm v hv
    refine ⟨hlen, ?_⟩
    have hall : (raw.write 0 (m.data.read 0 48)).read 0 48 = m.data.read 0 48 :=
      Storage.read_write raw (Storage.length_read m.data (by omega)) (by omega)
    have htake : ∀ s : Storage, s.read 0 v.length = (s.read 0 48).take v.length := by
      intro s
      simp [Storage.read, List.take_take, Nat.min_eq_left hlen]
    rw [htake, hall, ← htake, hread]
  heap := by
    intro hf
    have : m.isInline = false := hf
    rw [hm] at this
    cases this

/-- What is left of a message whose buffer is gone. -/
theorem emptied (h : Holds heap m c) (hm : m.isInline = false) (data : Storage) (heap' : Buffers) :
    Holds heap' { m with data := data, isInline := true } c.left where
  typeId := h.typeId
  senderShard := h.senderShard
  senderId := h.senderId
  inline := by
    intro _ v hv
    obtain ⟨-, b, -, -, hlen, hval⟩ := h.heap hm
    simp [Carried.left, hval, Option.filter, Nat.not_le.mpr hlen] at hv
  heap := by
    intro hf
    cases hf

/-- An inline message loses nothing. -/
theorem left_of_inline (h : Holds heap m c) (hm : m.isInline = true) : Holds heap m c.left where
  typeId := h.typeId
  senderShard := h.senderShard
  senderId := h.senderId
  inline := by
    intro _ v hv
    exact h.inline hm v (Option.filter_eq_some_iff.mp hv).1
  heap := by
    intro hf
    rw [hm] at hf
    cases hf

/-- A message with the address and the size of a new buffer. -/
theorem alloc {a : Nat} {bytes : List UInt8} (hpos : 0 < a) (hlt : a < 2^64)
    (hlen : 48 < bytes.length) (hsize : bytes.length < 2^64) (raw : Storage)
    (hdata : m.data = (raw.setSize bytes.length).setPtr a) (hvalue : c.value = some bytes)
    (hinline : m.isInline = false) (htype : m.typeId = c.typeId)
    (hshard : m.senderShard = c.senderShard) (hsender : m.senderId = c.senderId) :
    m.data.ptr = a ∧ Holds (heap.alloc a bytes) m c := by
  have hptr : m.data.ptr = a := by
    rw [hdata, Storage.ptr_setPtr, Nat.mod_eq_of_lt hlt]
  refine ⟨hptr, htype, hshard, hsender, ?_, ?_⟩
  · intro hi
    rw [hinline] at hi
    cases hi
  · intro _
    rw [hptr]
    refine ⟨hpos.ne', ⟨heap.allocated, bytes⟩, by simp [Heap.alloc], ?_, hlen, hvalue⟩
    rw [hdata, Storage.size_setPtr, Storage.size_setSize, Nat.mod_eq_of_lt hsize]

end Holds

/-- The buffer owned at a place. -/
def State.own (s : State) (p : Place) : Option Nat := (s.objects p).bind Message.owned

/-- Every place stores what it carries, and the buffers are owned by the messages. -/
structure Custody (s : State) (c : Place → Option Carried) : Prop where
  owned : s.heap.Owned s.own
  holds : ∀ p, Option.Rel (Holds s.heap) (s.objects p) (c p)

namespace Custody

variable {s : State} {c : Place → Option Carried} {p q : Place}

theorem at_place (h : Custody s c) {m : Message} (hm : s.objects p = some m) :
    ∃ d, c p = some d ∧ Holds s.heap m d := by
  have hrel := h.holds p
  rw [hm] at hrel
  cases hc : c p with
  | none =>
    rw [hc] at hrel
    cases hrel
  | some d =>
    rw [hc] at hrel
    cases hrel with
    | some hd => exact ⟨d, rfl, hd⟩

theorem none_iff (h : Custody s c) : s.objects p = none ↔ c p = none := by
  have hrel := h.holds p
  cases ho : s.objects p with
  | none =>
    rw [ho] at hrel
    cases hc : c p with
    | none => simp
    | some d =>
      rw [hc] at hrel
      cases hrel
  | some m =>
    obtain ⟨d, hd, -⟩ := h.at_place ho
    simp [hd]

theorem own_put (s : State) (p : Place) (m : Message) (heap : Buffers) :
    (s.put p m heap).own = Function.update s.own p m.owned := by
  funext q
  by_cases hq : q = p
  · subst hq
    simp [State.own, State.put]
  · simp [State.own, State.put, hq]

theorem own_of_inline {m : Message} (hm : s.objects p = some m) (hi : m.isInline = true) :
    s.own p = none := by
  simp [State.own, hm, Message.owned, hi]

theorem own_of_heap {m : Message} (hm : s.objects p = some m) (hi : m.isInline = false) :
    s.own p = some m.data.ptr := by
  simp [State.own, hm, Message.owned, hi]

/-- A new message at one place, with the buffers of the others as they were. -/
theorem put (h : Custody s c) {m : Message} {d : Carried} {heap : Buffers}
    (hown : heap.Owned (Function.update s.own p m.owned)) (hm : Holds heap m d)
    (hframe : ∀ q a, q ≠ p → s.own q = some a → heap.blocks a = s.heap.blocks a) :
    Custody (s.put p m heap) (Function.update c p (some d)) where
  owned := by
    rw [own_put]
    exact hown
  holds := by
    intro q
    by_cases hq : q = p
    · subst hq
      simp only [State.put, Function.update_self]
      exact .some hm
    · simp only [State.put, Function.update_of_ne hq]
      cases ho : s.objects q with
      | none =>
        rw [h.none_iff.mp ho]
        exact .none
      | some m' =>
        obtain ⟨d', hd', hm'⟩ := h.at_place ho
        rw [hd']
        refine .some (hm'.frame ?_)
        intro hi
        exact hframe q _ hq (own_of_heap ho hi)

/-- A place without a buffer gets an inline message. -/
theorem put_inline (h : Custody s c) {m : Message} {d : Carried} (hp : s.own p = none)
    (hi : m.isInline = true) (hm : Holds s.heap m d) :
    Custody (s.put p m s.heap) (Function.update c p (some d)) := by
  apply h.put
  · have : m.owned = s.own p := by simp [Message.owned, hi, hp]
    rw [this, Function.update_eq_self]
    exact h.owned
  · exact hm
  · intro q a _ _
    rfl

theorem malloc_cases (answer : Option Nat) (bytes : List UInt8) (heap : Buffers) :
    malloc answer bytes heap = .error .abort ∨
      ∃ a, 0 < a ∧ a < 2^64 ∧ heap.blocks a = none ∧
        malloc answer bytes heap = .ok (a, heap.alloc a bytes) := by
  cases answer with
  | none => exact .inl rfl
  | some a =>
    by_cases ha : 0 < a ∧ a < 2^64 ∧ (heap.blocks a).isNone
    · exact .inr ⟨a, ha.1, ha.2.1, Option.isNone_iff_eq_none.mp ha.2.2, if_pos ha⟩
    · exact .inl (if_neg ha)

/-- A place without a buffer gets a message with a new one. -/
theorem put_alloc (h : Custody s c) {m : Message} {d : Carried} {a : Nat} {bytes : List UInt8}
    (hp : s.own p = none) (ha : s.heap.blocks a = none) (hi : m.isInline = false)
    (hptr : m.data.ptr = a) (hm : Holds (s.heap.alloc a bytes) m d) :
    Custody (s.put p m (s.heap.alloc a bytes)) (Function.update c p (some d)) := by
  apply h.put
  · have : m.owned = some a := by simp [Message.owned, hi, hptr]
    rw [this]
    exact h.owned.alloc hp ha bytes
  · exact hm
  · intro q a' _ hq
    obtain ⟨b, hb⟩ := h.owned.live q a' hq
    have hne : a' ≠ a := by
      intro heq
      rw [heq, ha] at hb
      cases hb
    simp [Heap.alloc, hne]

/-- The buffer of a place is freed, and the message there is emptied. -/
theorem put_free (h : Custody s c) {m : Message} {d : Carried} {a : Nat} {heap : Buffers}
    (hp : s.own p = some a) (hf : s.heap.free a = some heap) (hi : m.isInline = true)
    (hm : Holds heap m d) : Custody (s.put p m heap) (Function.update c p (some d)) := by
  apply h.put
  · have : m.owned = none := by simp [Message.owned, hi]
    rw [this]
    exact h.owned.free hp hf
  · exact hm
  · intro q a' hq hown
    rw [Heap.blocks_free hf, if_neg]
    intro heq
    exact hq (h.owned.unique q p a (heq ▸ hown) hp)

/-- The buffer of `q` goes to a place without one. -/
theorem put_transfer (h : Custody s c) {m rest : Message} {d d' : Carried} {a : Nat}
    (hp : s.own p = none) (hq : s.own q = some a) (hne : q ≠ p) (howned : m.owned = some a)
    (hrest : rest.isInline = true) (hm : Holds s.heap m d) (hr : Holds s.heap rest d') :
    Custody ((s.put q rest s.heap).put p m s.heap)
      (Function.update (Function.update c q (some d')) p (some d)) where
  owned := by
    have hnone : rest.owned = none := by simp [Message.owned, hrest]
    rw [own_put, own_put, hnone, howned, ← hq, Function.update_comm hne]
    exact h.owned.transfer hp hne
  holds := by
    intro r
    by_cases hrp : r = p
    · subst hrp
      simp only [State.put, Function.update_self]
      exact .some hm
    · simp only [State.put, Function.update_of_ne hrp]
      by_cases hrq : r = q
      · subst hrq
        simp only [Function.update_self]
        exact .some hr
      · simp only [Function.update_of_ne hrq]
        exact h.holds r

theorem get_eq {m : Message} (hm : s.objects p = some m) : s.get p = .ok m := by
  simp [State.get, hm]

theorem vacant_eq (hp : s.objects p = none) : s.vacant p = .ok () := by
  simp [State.vacant, hp]

theorem own_vacant (hp : s.objects p = none) : s.own p = none := by
  simp [State.own, hp]

/-- `destroy` finds its buffer and leaves an inline message. -/
theorem destroy_spec (h : Custody s c) {m : Message} (hm : s.objects p = some m) :
    ∃ s' m', s.destroy p = .ok s' ∧ s'.objects = Function.update s.objects p (some m') ∧
      m'.isInline = true ∧ s'.boxes = s.boxes ∧
      Custody s' (Function.update c p ((c p).map Carried.left)) := by
  obtain ⟨d, hd, hholds⟩ := h.at_place hm
  rw [hd, Option.map_some]
  cases hi : m.isInline with
  | true =>
    refine ⟨s.put p m s.heap, m, ?_, rfl, hi, rfl, ?_⟩
    · simp [State.destroy, get_eq hm, Message.destroy, hi, bind, Except.bind, pure, Except.pure]
    · exact h.put_inline (own_of_inline hm hi) hi (hholds.left_of_inline hi)
  | false =>
    obtain ⟨hptr, b, hb, -⟩ := hholds.heap hi
    obtain ⟨heap, hfree⟩ : ∃ heap, s.heap.free m.data.ptr = some heap := by
      simp [Heap.free, hb]
    refine ⟨s.put p { m with data := (m.data.setPtr 0).setSize 0, isInline := true } heap, _, ?_,
      rfl, rfl, rfl, ?_⟩
    · simp [State.destroy, get_eq hm, Message.destroy, hi, hptr, free, hfree, bind, Except.bind,
        pure, Except.pure]
    · exact h.put_free (own_of_heap hm hi) hfree rfl (hholds.emptied hi _ _)

/-- A copy allocates its own buffer, or the program aborts. -/
theorem copyTo_spec (h : Custody s c) {other : Message} (hq : s.objects q = some other)
    (hp : s.own p = none) (raw : Storage) (answer : Option Nat) :
    s.copyTo p raw q answer = .error .abort ∨
      ∃ s', s.copyTo p raw q answer = .ok s' ∧ s'.boxes = s.boxes ∧
        Custody s' (Function.update c p (c q)) := by
  obtain ⟨d, hd, hholds⟩ := h.at_place hq
  rw [hd]
  cases hi : other.isInline with
  | true =>
    refine .inr ⟨s.put p { other with data := raw.write 0 (other.data.read 0 48) } s.heap, ?_, rfl, ?_⟩
    · simp [State.copyTo, get_eq hq, Message.copy, hi, bind, Except.bind, pure, Except.pure]
    · exact h.put_inline hp hi (hholds.write_inline hi raw s.heap)
  | false =>
    obtain ⟨hptr, b, hb, hsize, hlen, hval⟩ := hholds.heap hi
    have hload : load s.heap other.data.ptr other.data.size = .ok b.content := by
      simp [load, hb, hsize]
    rcases malloc_cases answer b.content s.heap with habort | ⟨a, hpos, hlt, hfresh, hmalloc⟩
    · refine .inl ?_
      simp [State.copyTo, get_eq hq, Message.copy, hi, hload, habort, bind, Except.bind]
    · refine .inr ⟨s.put p { other with data := (raw.setSize other.data.size).setPtr a }
        (s.heap.alloc a b.content), ?_, rfl, ?_⟩
      · simp [State.copyTo, get_eq hq, Message.copy, hi, hload, hmalloc, bind, Except.bind, pure,
          Except.pure]
      · have hbound : b.content.length < 2^64 := by
          rw [← hsize]
          exact other.data.size_lt
        rw [hsize]
        obtain ⟨hptr', hnew⟩ := Holds.alloc
          (m := { other with data := (raw.setSize b.content.length).setPtr a }) hpos hlt hlen hbound
          raw rfl hval hi hholds.typeId hholds.senderShard hholds.senderId
        exact h.put_alloc hp hfresh hi hptr' hnew

/-- A move takes the value over, with its buffer if it has one. -/
theorem moveTo_spec (h : Custody s c) {other : Message} (hq : s.objects q = some other)
    (hp : s.own p = none) (hne : q ≠ p) (raw : Storage) :
    ∃ s' rest, s.moveTo p raw q = .ok s' ∧ s'.boxes = s.boxes ∧ s'.objects q = some rest ∧
      rest.isInline = true ∧
      Custody s' (Function.update (Function.update c q ((c q).map Carried.left)) p (c q)) := by
  obtain ⟨d, hd, hholds⟩ := h.at_place hq
  rw [hd, Option.map_some]
  cases hi : other.isInline with
  | true =>
    have hrest : Custody (s.put q other s.heap) (Function.update c q (some d.left)) :=
      h.put_inline (own_of_inline hq hi) hi (hholds.left_of_inline hi)
    have hp' : (s.put q other s.heap).own p = none := by
      rw [own_put, Function.update_of_ne hne.symm, hp]
    refine ⟨(s.put q other s.heap).put p { other with data := raw.write 0 (other.data.read 0 48) }
      s.heap, other, ?_, rfl, ?_, hi, ?_⟩
    · simp [State.moveTo, get_eq hq, Message.move, hi, bind, Except.bind, pure, Except.pure]
    · simp [State.put, hne]
    · exact hrest.put_inline hp' hi (hholds.write_inline hi raw s.heap)
  | false =>
    have hdata := Storage.heapData_write raw other.data
    refine ⟨(s.put q { other with data := .zero, isInline := true } s.heap).put p
      { other with data := raw.write 0 (other.data.read 0 16) } s.heap,
      { other with data := .zero, isInline := true }, ?_, rfl, ?_, rfl, ?_⟩
    · simp [State.moveTo, get_eq hq, Message.move, hi, bind, Except.bind, pure, Except.pure]
    · simp [State.put, hne]
    · apply h.put_transfer hp (own_of_heap hq hi) hne
      · simp [Message.owned, hi, hdata.1]
      · rfl
      · refine ⟨hholds.typeId, hholds.senderShard, hholds.senderId, ?_, ?_⟩
        · intro hf
          have : other.isInline = true := hf
          rw [hi] at this
          cases this
        · intro _
          simp only [hdata.1, hdata.2]
          exact hholds.heap hi
      · exact hholds.emptied hi _ _

theorem own_update_none (s : State) (p : Place) :
    State.own { s with objects := Function.update s.objects p none } =
      Function.update s.own p none := by
  funext q
  by_cases hq : q = p
  · subst hq
    simp [State.own]
  · simp [State.own, hq]

/-- A message without a buffer goes out of existence. -/
theorem drop (h : Custody s c) (hp : s.own p = none) :
    Custody { s with objects := Function.update s.objects p none } (Function.update c p none) where
  owned := by
    rw [own_update_none, ← hp, Function.update_eq_self]
    exact h.owned
  holds := by
    intro q
    by_cases hq : q = p
    · subst hq
      simp only [Function.update_self]
      exact .none
    · simp only [Function.update_of_ne hq]
      exact h.holds q

end Custody

/-- The operation aborts, or ends with these messages and the same mailboxes. -/
def Yields (s : State) (r : Except Fault State) (c : Place → Option Carried) : Prop :=
  r = .error .abort ∨ ∃ s', r = .ok s' ∧ s'.boxes = s.boxes ∧ Custody s' c

namespace Custody

variable {s : State} {c : Place → Option Carried} {p q : Place}

theorem construct_spec (h : Custody s c) (hp : s.objects p = none) :
    ∃ s', s.construct p = .ok s' ∧ s'.boxes = s.boxes ∧
      Custody s' (Function.update c p (some ⟨0, 0, 0, none⟩)) := by
  refine ⟨s.put p .default s.heap, ?_, rfl, ?_⟩
  · simp [State.construct, vacant_eq hp, bind, Except.bind, pure, Except.pure]
  · apply h.put_inline (own_vacant hp) rfl
    refine ⟨rfl, rfl, rfl, ?_, ?_⟩
    · intro _ v hv
      cases hv
    · intro hf
      cases hf

theorem copyConstruct_spec (h : Custody s c) (hp : s.objects p = none) {other : Message}
    (hq : s.objects q = some other) (raw : Storage) (answer : Option Nat) :
    Yields s (s.copyConstruct p raw q answer) (Function.update c p (c q)) := by
  have heq : s.copyConstruct p raw q answer = s.copyTo p raw q answer := by
    simp [State.copyConstruct, vacant_eq hp, bind, Except.bind]
  rw [heq]
  exact h.copyTo_spec hq (own_vacant hp) raw answer

theorem moveConstruct_spec (h : Custody s c) (hp : s.objects p = none) {other : Message}
    (hq : s.objects q = some other) (raw : Storage) :
    ∃ s' rest, s.moveConstruct p raw q = .ok s' ∧ s'.boxes = s.boxes ∧ s'.objects q = some rest ∧
      rest.isInline = true ∧
      Custody s' (Function.update (Function.update c q ((c q).map Carried.left)) p (c q)) := by
  have heq : s.moveConstruct p raw q = s.moveTo p raw q := by
    simp [State.moveConstruct, vacant_eq hp, bind, Except.bind]
  have hne : q ≠ p := by
    intro hqp
    rw [hqp, hp] at hq
    cases hq
  rw [heq]
  exact h.moveTo_spec hq (own_vacant hp) hne raw

theorem copyAssign_spec (h : Custody s c) {m other : Message} (hp : s.objects p = some m)
    (hq : s.objects q = some other) (answer : Option Nat) :
    Yields s (s.copyAssign p q answer) (Function.update c p (c q)) := by
  unfold State.copyAssign
  by_cases hpq : p = q
  · subst hpq
    rw [if_pos rfl, Function.update_eq_self]
    exact .inr ⟨s, rfl, rfl, h⟩
  rw [if_neg hpq]
  obtain ⟨s₁, m', hdestroy, hobjects, hinline, hboxes, h₁⟩ := h.destroy_spec hp
  have hp₁ : s₁.objects p = some m' := by
    rw [hobjects, Function.update_self]
  have hq₁ : s₁.objects q = some other := by
    rw [hobjects, Function.update_of_ne (Ne.symm hpq), hq]
  have hcopy := h₁.copyTo_spec hq₁ (own_of_inline hp₁ hinline) m'.data answer
  rw [Function.update_of_ne (Ne.symm hpq), Function.update_idem, hboxes] at hcopy
  simpa [Yields, hdestroy, get_eq hp₁, bind, Except.bind] using hcopy

theorem moveAssign_spec (h : Custody s c) {m other : Message} (hp : s.objects p = some m)
    (hq : s.objects q = some other) (hpq : p ≠ q) :
    Yields s (s.moveAssign p q)
      (Function.update (Function.update c q ((c q).map Carried.left)) p (c q)) := by
  unfold State.moveAssign
  rw [if_neg hpq]
  obtain ⟨s₁, m', hdestroy, hobjects, hinline, hboxes, h₁⟩ := h.destroy_spec hp
  have hp₁ : s₁.objects p = some m' := by
    rw [hobjects, Function.update_self]
  have hq₁ : s₁.objects q = some other := by
    rw [hobjects, Function.update_of_ne (Ne.symm hpq), hq]
  obtain ⟨s₂, rest, hmove, hboxes₂, -, -, h₂⟩ :=
    h₁.moveTo_spec hq₁ (own_of_inline hp₁ hinline) (Ne.symm hpq) m'.data
  refine .inr ⟨s₂, ?_, hboxes₂.trans hboxes, ?_⟩
  · simpa [hdestroy, get_eq hp₁, bind, Except.bind] using hmove
  · rw [Function.update_of_ne (Ne.symm hpq), Function.update_comm hpq, Function.update_idem] at h₂
    exact h₂

theorem fill_spec (h : Custody s c) {m : Message} {d : Carried} (hp : s.objects p = some m)
    (hi : m.isInline = true) (hd : c p = some d) (val : Payload) (answer : Option Nat) :
    m.fill val answer s.heap = .error .abort ∨
      ∃ m' heap, m.fill val answer s.heap = .ok (m', heap) ∧
        Custody (s.put p m' heap) (Function.update c p (some { d with value := some val.1 })) := by
  obtain ⟨d', hd', hholds⟩ := h.at_place hp
  have : d' = d := Option.some.inj (hd'.symm.trans hd)
  subst this
  have hown := own_of_inline hp hi
  unfold Message.fill
  by_cases hlen : val.1.length ≤ 48
  · rw [if_pos hlen]
    refine .inr ⟨_, _, rfl, h.put_inline hown rfl ?_⟩
    refine ⟨hholds.typeId, hholds.senderShard, hholds.senderId, ?_, ?_⟩
    · intro _ v hv
      cases hv
      exact ⟨hlen, Storage.read_write m.data rfl (by omega)⟩
    · intro hf
      cases hf
  · rw [if_neg hlen]
    rcases malloc_cases answer val.1 s.heap with habort | ⟨a, hpos, hlt, hfresh, hmalloc⟩
    · exact .inl (by simp [habort, bind, Except.bind])
    · obtain ⟨hptr, hnew⟩ := Holds.alloc
        (m := { m with data := (m.data.setSize val.1.length).setPtr a, isInline := false })
        (c := { d' with value := some val.1 }) hpos hlt (Nat.lt_of_not_le hlen) val.2
        m.data rfl rfl rfl hholds.typeId hholds.senderShard hholds.senderId
      refine .inr ⟨_, _, ?_, h.put_alloc hown hfresh rfl hptr hnew⟩
      simp [hmalloc, bind, Except.bind, pure, Except.pure]

theorem set_spec (h : Custody s c) {m : Message} (hp : s.objects p = some m) (val : Payload)
    (answer : Option Nat) :
    Yields s (s.set p val answer)
      (Function.update c p ((c p).map fun d => { d with value := some val.1 })) := by
  obtain ⟨s₁, m', hdestroy, hobjects, hinline, hboxes, h₁⟩ := h.destroy_spec hp
  have hp₁ : s₁.objects p = some m' := by
    rw [hobjects, Function.update_self]
  obtain ⟨d, hd, -⟩ := h.at_place hp
  rw [hd, Option.map_some] at h₁ ⊢
  rcases h₁.fill_spec hp₁ hinline (Function.update_self _ _ _) val answer with
    habort | ⟨m₂, heap, hfill, h₂⟩
  · exact .inl (by simp [State.set, hdestroy, get_eq hp₁, habort, bind, Except.bind])
  · refine .inr ⟨s₁.put p m₂ heap, ?_, hboxes, ?_⟩
    · simp [State.set, hdestroy, get_eq hp₁, hfill, bind, Except.bind, pure, Except.pure]
    · rw [Function.update_idem] at h₂
      exact h₂

theorem setHeader_spec (h : Custody s c) {m : Message} (hp : s.objects p = some m)
    (typeId senderShard : UInt32) (senderId : UInt64) :
    ∃ s', s.setHeader p typeId senderShard senderId = .ok s' ∧ s'.boxes = s.boxes ∧
      Custody s' (Function.update c p
        ((c p).map fun d => ⟨typeId, senderShard, senderId, d.value⟩)) := by
  obtain ⟨d, hd, hholds⟩ := h.at_place hp
  let m' := { m with typeId := typeId, senderShard := senderShard, senderId := senderId }
  have hown : m'.owned = s.own p := by simp [State.own, hp, m', Message.owned]
  refine ⟨s.put p m' s.heap, ?_, rfl, ?_⟩
  · simp [State.setHeader, get_eq hp, m', bind, Except.bind, pure, Except.pure]
  · rw [hd, Option.map_some]
    apply h.put
    · rw [hown, Function.update_eq_self]
      exact h.owned
    · exact ⟨rfl, rfl, rfl, hholds.inline, hholds.heap⟩
    · intro q a _ _
      rfl

theorem destruct_spec (h : Custody s c) {m : Message} (hp : s.objects p = some m) :
    ∃ s', s.destruct p = .ok s' ∧ s'.boxes = s.boxes ∧
      s'.objects = Function.update s.objects p none ∧ Custody s' (Function.update c p none) := by
  obtain ⟨s₁, m', hdestroy, hobjects, hinline, hboxes, h₁⟩ := h.destroy_spec hp
  have hp₁ : s₁.objects p = some m' := by
    rw [hobjects, Function.update_self]
  have h₂ := h₁.drop (own_of_inline hp₁ hinline)
  rw [Function.update_idem] at h₂
  refine ⟨_, ?_, ?_, ?_, h₂⟩
  · simp [State.destruct, hdestroy, bind, Except.bind, pure, Except.pure]
  · exact hboxes
  · rw [hobjects, Function.update_idem]

/-- A message is moved to a new place and the old one is destroyed. -/
theorem relay_spec (h : Custody s c) (hp : s.objects p = none) {d : Carried} (hq : c q = some d)
    (raw : Storage) :
    ∃ s₁ s₂, s.moveConstruct p raw q = .ok s₁ ∧ s₁.destruct q = .ok s₂ ∧ s₂.boxes = s.boxes ∧
      Custody s₂ (Function.update (Function.update c q none) p (some d)) := by
  have hsome : s.objects q ≠ none := by
    rw [Ne, h.none_iff, hq]
    simp
  obtain ⟨m, hm⟩ := Option.ne_none_iff_exists'.mp hsome
  have hne : p ≠ q := by
    intro hpq
    exact hsome (hpq ▸ hp)
  obtain ⟨s₁, rest, hmove, hboxes₁, hrest, -, h₁⟩ := h.moveConstruct_spec hp hm raw
  obtain ⟨s₂, hdestruct, hboxes₂, -, h₂⟩ := h₁.destruct_spec hrest
  rw [Function.update_comm hne, Function.update_idem, hq] at h₂
  exact ⟨s₁, s₂, hmove, hdestruct, hboxes₂.trans hboxes₁, h₂⟩

end Custody

end Jellybean.Actor
