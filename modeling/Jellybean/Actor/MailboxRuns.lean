import Jellybean.Actor.MessageCustody

namespace Jellybean.Actor

/-- The ring holds these messages, oldest first, in the slots from `dequeuePos` on; the other slots
wait for the pushes to come. -/
structure Ring (box : Mailbox) (slots : Nat → Option Carried) (cs : List Carried) : Prop where
  enqueuePos : box.enqueuePos = box.dequeuePos + cs.length
  length_le : cs.length ≤ capacity.val
  held : ∀ k c, cs[k]? = some c →
    box.sequence (capacity.slot (box.dequeuePos + k)) = box.dequeuePos + k + 1 ∧
      slots (capacity.slot (box.dequeuePos + k)) = some c
  free : ∀ k, cs.length ≤ k → k < capacity.val →
    box.sequence (capacity.slot (box.dequeuePos + k)) = box.dequeuePos + k ∧
      slots (capacity.slot (box.dequeuePos + k)) = none

namespace Ring

variable {box : Mailbox} {slots : Nat → Option Carried} {cs : List Carried}

theorem empty : Ring .empty (fun _ => none) [] where
  enqueuePos := rfl
  length_le := by simp
  held := by
    intro k c hk
    simp at hk
  free := by
    intro k _ hk
    refine ⟨?_, rfl⟩
    rw [capacity.slot_eq_mod]
    simpa [Mailbox.empty] using Nat.mod_eq_of_lt hk

theorem full (h : Ring box slots cs) (hlen : ¬ cs.length < 1024) :
    (box.sequence (capacity.slot box.enqueuePos) : Int) - box.enqueuePos < 0 := by
  have hlen' : cs.length = capacity.val := Nat.le_antisymm h.length_le (Nat.le_of_not_lt hlen)
  have hpos : 0 < cs.length := by
    rw [hlen']
    decide
  obtain ⟨hseq, -⟩ := h.held 0 cs[0] (by simp [hpos])
  rw [h.enqueuePos, hlen', capacity.slot_add_val]
  simp only [Nat.add_zero] at hseq
  rw [hseq]
  have : capacity.val = 1024 := rfl
  omega

/-- The slot of the next push. -/
theorem next_free (h : Ring box slots cs) (hlen : cs.length < 1024) :
    box.sequence (capacity.slot box.enqueuePos) = box.enqueuePos ∧
      slots (capacity.slot box.enqueuePos) = none := by
  rw [h.enqueuePos]
  exact h.free cs.length (Nat.le_refl _) hlen

theorem push (h : Ring box slots cs) (hlen : cs.length < 1024) (c : Carried) :
    Ring ⟨Function.update box.sequence (capacity.slot box.enqueuePos) (box.enqueuePos + 1),
        box.enqueuePos + 1, box.dequeuePos⟩
      (Function.update slots (capacity.slot box.enqueuePos) (some c)) (cs ++ [c]) := by
  have hlt : cs.length < capacity.val := hlen
  have hother : ∀ k, k < capacity.val → k ≠ cs.length →
      capacity.slot (box.dequeuePos + k) ≠ capacity.slot box.enqueuePos := by
    intro k hk hne heq
    rw [h.enqueuePos] at heq
    have := capacity.eq_of_slot heq (by omega) (by omega)
    omega
  constructor
  · simp [h.enqueuePos]
    omega
  · rw [List.length_append]
    exact hlen
  · intro k d hk
    by_cases hkl : k = cs.length
    · subst hkl
      simp only [List.getElem?_concat_length, Option.some.injEq] at hk
      simp [h.enqueuePos, hk]
    · have hk' : k < cs.length := by
        have := (List.getElem?_eq_some_iff.mp hk).1
        simp at this
        omega
      rw [List.getElem?_append_left hk'] at hk
      have hne := hother k (by have := h.length_le; omega) hkl
      simp only [Function.update_of_ne hne]
      exact h.held k d hk
  · intro k hkl hk
    simp only [List.length_append, List.length_singleton] at hkl
    have hne := hother k hk (by omega)
    simp only [Function.update_of_ne hne]
    exact h.free k (by omega) hk

theorem nothing_to_pop (h : Ring box slots []) :
    (box.sequence (capacity.slot box.dequeuePos) : Int) - (box.dequeuePos + 1 : Nat) < 0 := by
  have := (h.free 0 (by simp) (by decide)).1
  simp only [Nat.add_zero] at this
  omega

/-- The slot of the next pop. -/
theorem first_held {c : Carried} (h : Ring box slots (c :: cs)) :
    box.sequence (capacity.slot box.dequeuePos) = box.dequeuePos + 1 ∧
      slots (capacity.slot box.dequeuePos) = some c :=
  h.held 0 c rfl

theorem pop {c : Carried} (h : Ring box slots (c :: cs)) :
    Ring ⟨Function.update box.sequence (capacity.slot box.dequeuePos)
        (box.dequeuePos + capacity.mask + 1), box.enqueuePos, box.dequeuePos + 1⟩
      (Function.update slots (capacity.slot box.dequeuePos) none) cs := by
  have hlen : cs.length + 1 ≤ capacity.val := h.length_le
  have hother : ∀ k, k + 1 < capacity.val →
      capacity.slot (box.dequeuePos + (k + 1)) ≠ capacity.slot box.dequeuePos := by
    intro k hk heq
    have := capacity.eq_of_slot heq (by omega) (by omega)
    omega
  have hshift : ∀ k, box.dequeuePos + 1 + k = box.dequeuePos + (k + 1) := by
    intro k
    omega
  constructor
  · have := h.enqueuePos
    simp only [List.length_cons] at this
    simp only
    omega
  · omega
  · intro k d hk
    have hk' := (List.getElem?_eq_some_iff.mp hk).1
    simp only [hshift, Function.update_of_ne (hother k (by omega))]
    exact h.held (k + 1) d (by simpa using hk)
  · intro k hkl hk
    by_cases hlast : k + 1 = capacity.val
    · have hslot : capacity.slot (box.dequeuePos + 1 + k) = capacity.slot box.dequeuePos := by
        rw [hshift, hlast, capacity.slot_add_val]
      simp only [hslot, Function.update_self, capacity.mask_succ, and_true]
      omega
    · simp only [hshift, Function.update_of_ne (hother k (by omega))]
      exact h.free (k + 1) (by simpa using hkl) (by omega)

end Ring

/-- The state represents these contents. -/
structure Represents (s : State) (a : Contents) (c : Place → Option Carried) : Prop where
  custody : Custody s c
  pool : ∀ i, c (.pool i) = a.pool i
  boxes : ∀ b, Ring (s.boxes b) (fun j => c (.slot b j)) (a.boxes b)
  item : c .item = none

namespace Represents

variable {s : State} {a : Contents} {c : Place → Option Carried}

theorem initial : Represents .initial .initial fun _ => none where
  custody := ⟨Heap.Owned.empty, fun _ => .none⟩
  pool _ := rfl
  boxes _ := Ring.empty
  item := rfl

/-- An operation on the pool. -/
theorem pool_step (h : Represents s a c) {s' : State} {c' : Place → Option Carried}
    {f : Nat → Option Carried} (hboxes : s'.boxes = s.boxes) (hcustody : Custody s' c')
    (hpool : ∀ i, c' (.pool i) = f i) (hother : ∀ p, (∀ i, p ≠ .pool i) → c' p = c p) :
    Represents s' { a with pool := f } c' where
  custody := hcustody
  pool := hpool
  boxes := by
    intro b
    have hslots : (fun j => c' (.slot b j)) = fun j => c (.slot b j) := by
      funext j
      exact hother _ (by simp)
    rw [hboxes, hslots]
    exact h.boxes b
  item := by
    rw [hother _ (by simp)]
    exact h.item

theorem update_pool {f : Place → Option Carried} {g : Nat → Option Carried}
    (h : ∀ i, f (.pool i) = g i) (p i : Nat) (x : Option Carried) :
    Function.update f (.pool p) x (.pool i) = Function.update g p x i := by
  simp [Function.update_apply, h]

/-- One message of the pool changes. -/
theorem pool_put (h : Represents s a c) {s' : State} {p : Nat} {x : Option Carried}
    (hboxes : s'.boxes = s.boxes) (hcustody : Custody s' (Function.update c (.pool p) x)) :
    Represents s' { a with pool := Function.update a.pool p x } (Function.update c (.pool p) x) := by
  apply h.pool_step hboxes hcustody
  · intro i
    exact update_pool h.pool p i x
  · intro q hq
    exact Function.update_of_ne (hq p) _ _

/-- A message of the pool is moved to another. -/
theorem pool_move (h : Represents s a c) {s' : State} {p q : Nat} (hboxes : s'.boxes = s.boxes)
    (hcustody : Custody s' (Function.update
      (Function.update c (.pool q) ((c (.pool q)).map Carried.left)) (.pool p) (c (.pool q)))) :
    ∃ c', Represents s' (a.move p q) c' := by
  refine ⟨_, h.pool_step hboxes hcustody ?_ ?_⟩
  · intro i
    rw [h.pool]
    exact update_pool (update_pool h.pool q · _) p i _
  · intro r hr
    rw [Function.update_of_ne (hr p), Function.update_of_ne (hr q)]

/-- An operation on one mailbox. -/
theorem box_step (h : Represents s a c) {s' : State} {c' : Place → Option Carried} {b : Nat}
    {box : Mailbox} {cs : List Carried} {f : Nat → Option Carried} (hcustody : Custody s' c')
    (hboxes : s'.boxes = Function.update s.boxes b box) (hpool : ∀ i, c' (.pool i) = f i)
    (hring : Ring box (fun j => c' (.slot b j)) cs)
    (hother : ∀ b' j, b' ≠ b → c' (.slot b' j) = c (.slot b' j)) (hitem : c' .item = none) :
    Represents s' ⟨f, Function.update a.boxes b cs⟩ c' where
  custody := hcustody
  pool := hpool
  boxes := by
    intro b'
    rw [hboxes]
    by_cases hb : b' = b
    · subst hb
      simp only [Function.update_self]
      exact hring
    · simp only [Function.update_of_ne hb, hother b' _ hb]
      exact h.boxes b'
  item := hitem

/-- A push moves the message to the slot of its ticket, which held none, or leaves it alone. -/
theorem tryPush_spec (h : Represents s a c) {b p : Nat} {m : Message} {d : Carried}
    (hm : s.objects (.pool p) = some m) (hd : a.pool p = some d) (raw : Storage) :
    ∃ s' ok c', s.tryPush b (.pool p) raw = .ok (s', ok) ∧
      Represents s' (a.apply (.tryPush b p raw)) c' := by
  have hring := h.boxes b
  unfold State.tryPush Contents.apply
  simp only [hd]
  by_cases hlen : (a.boxes b).length < 1024
  · obtain ⟨hseq, hslot⟩ := hring.next_free hlen
    rw [if_pos (by rw [hseq, sub_self]), if_pos hlen]
    obtain ⟨s₁, rest, hmove, hboxes, -, -, h₁⟩ :=
      h.custody.moveConstruct_spec (h.custody.none_iff.mpr hslot) hm raw
    rw [h.pool, hd, Option.map_some] at h₁
    rw [hmove]
    refine ⟨_, _, _, rfl, h.box_step ⟨h₁.owned, h₁.holds⟩ (by rw [hboxes]) ?_ ?_ ?_ ?_⟩
    · intro i
      rw [Function.update_of_ne (by simp)]
      exact update_pool h.pool p i _
    · have hslots : (fun j => Function.update (Function.update c (.pool p) (some d.left))
          (.slot b (capacity.slot (s.boxes b).enqueuePos)) (some d) (.slot b j)) =
          Function.update (fun j => c (.slot b j)) (capacity.slot (s.boxes b).enqueuePos)
            (some d) := by
        funext j
        simp [Function.update_apply]
      rw [hslots]
      exact hring.push hlen d
    · intro b' j hb
      simp [hb]
    · simpa using h.item
  · have hfull := hring.full hlen
    rw [if_neg (by omega), if_pos hfull, if_neg hlen]
    exact ⟨s, false, c, rfl, h⟩

/-- A pop moves the oldest message to the local variable and on to the optional; the slot and the
variable are destroyed after that and free nothing. -/
theorem tryPop_spec (h : Represents s a c) {b p : Nat} (hp : s.objects (.pool p) = none)
    (rawItem raw : Storage) :
    ∃ s' ok c', s.tryPop b (.pool p) rawItem raw = .ok (s', ok) ∧
      Represents s' (a.apply (.tryPop b p rawItem raw)) c' := by
  have hring := h.boxes b
  unfold State.tryPop Contents.apply
  cases hbox : a.boxes b with
  | nil =>
    rw [hbox] at hring
    have hempty := hring.nothing_to_pop
    simp only [hbox]
    rw [if_neg (by omega), if_pos hempty]
    exact ⟨s, false, c, rfl, h⟩
  | cons d cs =>
    rw [hbox] at hring
    obtain ⟨hseq, hslot⟩ := hring.first_held
    simp only [hbox]
    rw [if_pos (by rw [hseq, sub_self])]
    obtain ⟨s₁, s₂, hmove₁, hdestruct₂, hboxes₂, h₂⟩ :=
      h.custody.relay_spec (h.custody.none_iff.mpr h.item) hslot rawItem
    let box : Mailbox := ⟨Function.update (s.boxes b).sequence
      (capacity.slot (s.boxes b).dequeuePos) ((s.boxes b).dequeuePos + capacity.mask + 1),
      (s.boxes b).enqueuePos, (s.boxes b).dequeuePos + 1⟩
    have h₂' : Custody { s₂ with boxes := Function.update s₂.boxes b box } _ :=
      ⟨h₂.owned, h₂.holds⟩
    have hp₂ : s₂.objects (.pool p) = none := by
      rw [h₂.none_iff]
      simpa using h.custody.none_iff.mp hp
    obtain ⟨s₃, s₄, hmove₃, hdestruct₄, hboxes₄, h₄⟩ :=
      h₂'.relay_spec hp₂ (Function.update_self _ _ _) raw
    rw [Function.update_idem] at h₄
    have hboxes : s₄.boxes = Function.update s.boxes b box := by
      rw [hboxes₄, hboxes₂]
    refine ⟨s₄, true, _, ?_, h.box_step h₄ hboxes ?_ ?_ ?_ ?_⟩
    · simp only [box] at hmove₃
      simp [hmove₁, hdestruct₂, hmove₃, hdestruct₄, bind, Except.bind, pure, Except.pure]
    · intro i
      rw [update_pool (g := a.pool) _ p i _]
      intro i
      simp [h.pool]
    · have hslots : (fun j => Function.update (Function.update (Function.update c
          (.slot b (capacity.slot (s.boxes b).dequeuePos)) none) .item none) (.pool p) (some d)
          (.slot b j)) =
          Function.update (fun j => c (.slot b j)) (capacity.slot (s.boxes b).dequeuePos) none := by
        funext j
        simp [Function.update_apply]
      rw [hslots]
      exact hring.pop
    · intro b' j hb
      simp [hb]
    · simp

theorem exists_of_isSome (h : Represents s a c) {p : Nat}
    (hp : (s.objects (.pool p)).isSome = true) :
    ∃ m d, s.objects (.pool p) = some m ∧ a.pool p = some d := by
  obtain ⟨m, hm⟩ := Option.isSome_iff_exists.mp hp
  obtain ⟨d, hd, -⟩ := h.custody.at_place hm
  exact ⟨m, d, hm, (h.pool p).symm.trans hd⟩

/-- What an operation aborts with or ends in. -/
def Proper (a : Contents) (r : Except Fault State) : Prop :=
  r = .error .abort ∨ ∃ s' c', r = .ok s' ∧ Represents s' a c'

theorem of_yields (h : Represents s a c) {r : Except Fault State} {p : Nat} {x : Option Carried}
    (hr : Yields s r (Function.update c (.pool p) x)) :
    Proper { a with pool := Function.update a.pool p x } r := by
  rcases hr with habort | ⟨s', hs', hboxes, hcustody⟩
  · exact .inl habort
  · exact .inr ⟨s', _, hs', h.pool_put hboxes hcustody⟩

/-- One case per operation: it keeps the representation, if it does not abort. -/
theorem perform_spec (h : Represents s a c) {op : Op} (hallowed : op.allowed s = true) :
    Proper (a.apply op) (op.perform s) := by
  cases op with
  | construct p =>
    have hp := Option.isNone_iff_eq_none.mp hallowed
    exact h.of_yields (.inr (h.custody.construct_spec hp))
  | copyConstruct p raw q answer =>
    obtain ⟨hp, hq⟩ := Bool.and_eq_true_iff.mp hallowed
    obtain ⟨m, -, hm, -⟩ := h.exists_of_isSome hq
    have hspec := h.custody.copyConstruct_spec (Option.isNone_iff_eq_none.mp hp) hm raw answer
    rw [h.pool] at hspec
    exact h.of_yields hspec
  | moveConstruct p raw q =>
    obtain ⟨hp, hq⟩ := Bool.and_eq_true_iff.mp hallowed
    obtain ⟨m, -, hm, -⟩ := h.exists_of_isSome hq
    obtain ⟨s', rest, hs', hboxes, -, -, hcustody⟩ :=
      h.custody.moveConstruct_spec (Option.isNone_iff_eq_none.mp hp) hm raw
    obtain ⟨c', hc'⟩ := h.pool_move hboxes hcustody
    exact .inr ⟨s', c', hs', hc'⟩
  | copyAssign p q answer =>
    obtain ⟨hp, hq⟩ := Bool.and_eq_true_iff.mp hallowed
    obtain ⟨m, -, hm, -⟩ := h.exists_of_isSome hp
    obtain ⟨other, -, hother, -⟩ := h.exists_of_isSome hq
    have hspec := h.custody.copyAssign_spec hm hother answer
    rw [h.pool] at hspec
    exact h.of_yields hspec
  | moveAssign p q =>
    obtain ⟨hp, hq⟩ := Bool.and_eq_true_iff.mp hallowed
    obtain ⟨m, -, hm, -⟩ := h.exists_of_isSome hp
    obtain ⟨other, -, hother, -⟩ := h.exists_of_isSome hq
    by_cases hpq : p = q
    · refine .inr ⟨s, c, ?_, ?_⟩
      · simp [Op.perform, State.moveAssign, hpq]
      · simpa [Contents.apply, hpq] using h
    · have hne : Place.pool p ≠ .pool q := by simpa using hpq
      rcases h.custody.moveAssign_spec hm hother hne with habort | ⟨s', hs', hboxes, hcustody⟩
      · exact .inl habort
      · obtain ⟨c', hc'⟩ := h.pool_move hboxes hcustody
        refine .inr ⟨s', c', hs', ?_⟩
        simpa [Contents.apply, hpq] using hc'
  | set p val answer =>
    obtain ⟨m, -, hm, -⟩ := h.exists_of_isSome hallowed
    have hspec := h.custody.set_spec hm val answer
    rw [h.pool] at hspec
    exact h.of_yields hspec
  | setHeader p typeId senderShard senderId =>
    obtain ⟨m, -, hm, -⟩ := h.exists_of_isSome hallowed
    have hspec := h.custody.setHeader_spec hm typeId senderShard senderId
    rw [h.pool] at hspec
    exact h.of_yields (.inr hspec)
  | destroy p =>
    obtain ⟨m, -, hm, -⟩ := h.exists_of_isSome hallowed
    obtain ⟨s', -, hs', -, -, hboxes, hcustody⟩ := h.custody.destroy_spec hm
    rw [h.pool] at hcustody
    exact h.of_yields (.inr ⟨s', hs', hboxes, hcustody⟩)
  | destruct p =>
    obtain ⟨m, -, hm, -⟩ := h.exists_of_isSome hallowed
    obtain ⟨s', hs', hboxes, -, hcustody⟩ := h.custody.destruct_spec hm
    exact h.of_yields (.inr ⟨s', hs', hboxes, hcustody⟩)
  | tryPush b p raw =>
    obtain ⟨m, d, hm, hd⟩ := h.exists_of_isSome hallowed
    obtain ⟨s', ok, c', hs', hc'⟩ := h.tryPush_spec (b := b) hm hd raw
    exact .inr ⟨s', c', by simp [Op.perform, hs', Except.map], hc'⟩
  | tryPop b p rawItem raw =>
    have hp := Option.isNone_iff_eq_none.mp hallowed
    obtain ⟨s', ok, c', hs', hc'⟩ := h.tryPop_spec (b := b) hp rawItem raw
    exact .inr ⟨s', c', by simp [Op.perform, hs', Except.map], hc'⟩

/-- A run ends with the fault of its caller, with `abort`, or represents what was carried. -/
theorem run_spec (ops : List Op) :
    run ops = .error .misuse ∨ run ops = .error .abort ∨
      ∃ s c, run ops = .ok s ∧ Represents s (.after ops) c := by
  induction ops using List.reverseRecOn with
  | nil => exact .inr (.inr ⟨_, _, rfl, initial⟩)
  | append_singleton ops op ih =>
    have hrun : run (ops ++ [op]) = run ops >>= fun s => op.exec s := by
      simp [run, List.foldlM_append]
    have hafter : Contents.after (ops ++ [op]) = (Contents.after ops).apply op := by
      simp [Contents.after]
    rw [hrun, hafter]
    rcases ih with hs | hs | ⟨s, c, hs, hc⟩
    · rw [hs]
      exact .inl rfl
    · rw [hs]
      exact .inr (.inl rfl)
    · rw [hs]
      change op.exec s = _ ∨ op.exec s = _ ∨ ∃ s' c', op.exec s = _ ∧ _
      unfold Op.exec
      by_cases hallowed : op.allowed s = true
      · rw [if_pos hallowed]
        exact .inr (hc.perform_spec hallowed)
      · rw [if_neg hallowed]
        exact .inl rfl

end Represents

/-- The message at `p` owns the `k`-th buffer that was allocated. -/
def State.Owns (s : State) (p : Place) (k : Nat) : Prop :=
  ∃ m b, s.objects p = some m ∧ m.isInline = false ∧ s.heap.blocks m.data.ptr = some b ∧ b.serial = k

/-- Every message with a buffer has one of its recorded size that no other has, every buffer has
one owner until it is freed, and that once, and the messages of the pool can be read. -/
structure Intact (s : State) (a : Contents) : Prop where
  owned : ∀ p m, s.objects p = some m → m.isInline = false →
    ∃ b, s.heap.blocks m.data.ptr = some b ∧ b.content.length = m.data.size ∧
      ∀ q m', s.objects q = some m' → m'.isInline = false → m'.data.ptr = m.data.ptr → q = p
  freed : ∀ k, k < s.heap.allocated →
    (∃! p, s.Owns p k) ∧ s.heap.frees k = 0 ∨ (¬ ∃ p, s.Owns p k) ∧ s.heap.frees k = 1
  carried : ∀ i m, s.objects (.pool i) = some m → ∃ d, a.pool i = some d ∧
    m.typeId = d.typeId ∧ m.senderShard = d.senderShard ∧ m.senderId = d.senderId ∧
      ∀ v, d.value = some v → m.as s.heap v.length = .ok v

theorem owns_iff (s : State) (p : Place) (k : Nat) :
    s.Owns p k ↔ ∃ a b, s.own p = some a ∧ s.heap.blocks a = some b ∧ b.serial = k := by
  constructor
  · intro ⟨m, b, hm, hi, hb, hk⟩
    exact ⟨_, b, Custody.own_of_heap hm hi, hb, hk⟩
  · intro ⟨a, b, hown, hb, hk⟩
    obtain ⟨m, hm, hmo⟩ := Option.bind_eq_some_iff.mp hown
    cases hi : m.isInline with
    | true => simp [Message.owned, hi] at hmo
    | false =>
      simp only [Message.owned, hi, Bool.false_eq_true, if_false, Option.some.injEq] at hmo
      exact ⟨m, b, hm, hi, hmo ▸ hb, hk⟩

theorem Represents.intact {s : State} {a : Contents} {c : Place → Option Carried}
    (h : Represents s a c) : Intact s a where
  owned := by
    intro p m hm hi
    obtain ⟨d, -, hholds⟩ := h.custody.at_place hm
    obtain ⟨-, b, hb, hsize, -, -⟩ := hholds.heap hi
    refine ⟨b, hb, hsize.symm, ?_⟩
    intro q m' hm' hi' hptr
    have hq := Custody.own_of_heap hm' hi'
    rw [hptr] at hq
    exact h.custody.owned.unique q p _ hq (Custody.own_of_heap hm hi)
  freed := by
    intro k hk
    simp only [owns_iff]
    exact h.custody.owned.freed_once hk
  carried := by
    intro i m hm
    obtain ⟨d, hd, hholds⟩ := h.custody.at_place hm
    refine ⟨d, (h.pool i).symm.trans hd, hholds.typeId, hholds.senderShard, hholds.senderId, ?_⟩
    intro v hv
    exact hholds.as_eq hv

/-- A sequence of operations ends in a misuse by the caller or in `abort`, and never in an access
to a buffer that is not there; otherwise everything is intact. -/
theorem messages_intact (ops : List Op) :
    run ops = .error .misuse ∨ run ops = .error .abort ∨
      ∃ s, run ops = .ok s ∧ Intact s (.after ops) := by
  rcases Represents.run_spec ops with hrun | hrun | ⟨s, c, hrun, hrep⟩
  · exact .inl hrun
  · exact .inr (.inl hrun)
  · exact .inr (.inr ⟨s, hrun, hrep.intact⟩)

/-- A value of 49 bytes goes through a mailbox; its buffer is freed at the end, and once. -/
example :
    let sent := [.construct 0, .set 0 ⟨List.replicate 49 7, by decide⟩ (some 4096),
      .tryPush 3 0 .zero, .tryPop 3 1 .zero .zero]
    ((run sent).toOption.bind fun s => (s.objects (.pool 1)).bind fun m =>
        (m.as s.heap 49).toOption) = some (List.replicate 49 7) ∧
      ((run (sent ++ [.destruct 0, .destruct 1])).toOption.map fun s =>
        (s.heap.allocated, s.heap.frees 0)) = some (1, 1) := by
  decide +kernel

end Jellybean.Actor
