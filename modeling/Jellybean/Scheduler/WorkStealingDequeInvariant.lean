import Jellybean.Scheduler.WorkStealingDeque

namespace Jellybean.Scheduler.WorkStealingDeque

variable {ι α : Type*} [DecidableEq ι]

/-- One past the newest item. `pop` lowers `bottom_` before it knows whether it takes that
item; until it reads a smaller `top_` the item is still there. -/
def Owner.absBottom (bottom : Int) : Owner α → Int
  | .popLoadTop b _ | .popCas b _ _ | .popRestoreBottom b _ => b + 1
  | .popLoad b _ t => if t < b then b else b + 1
  | _ => bottom

def State.absBottom (s : State ι α) : Int := s.owner.absBottom s.bottom

/-- The copy loop of `resize` has copied the live indices below `i` into `new`. -/
def Copied (s : State ι α) (b : Int) (old new : Nat) (i : Int) : Prop :=
  b = s.bottom ∧ old = s.array ∧ s.array < new ∧ new < s.allocated ∧
    (s.heap new).capacity = s.current.capacity * 2 ∧ 0 ≤ i ∧
    ∀ j, s.top ≤ j → j < i → (s.heap new).load j = s.current.load j

/-- What the owner's local variables say about shared memory. -/
def OwnerInv (s : State ι α) : Owner α → Prop
  | .idle | .pushLoadBottom _ | .pushReturn | .popLoadBottom | .popReturn _ => True
  | .pushLoadTop _ b => b = s.bottom
  | .pushLoadArray _ b t => b = s.bottom ∧ 0 ≤ t ∧ t ≤ s.top
  | .resizeAlloc _ b t old => b = s.bottom ∧ 0 ≤ t ∧ t ≤ s.top ∧ old = s.array
  | .resizeLoad _ b old new i => Copied s b old new i
  | .resizeStore _ b old new i val => Copied s b old new i ∧ i < b ∧ val = s.current.load i
  | .pushStore _ b a => b = s.bottom ∧ a = s.array ∧ b - s.top < s.current.capacity
  | .pushStoreBottom item b =>
    b = s.bottom ∧ b - s.top < s.current.capacity ∧ s.current.load b = item
  | .popLoadArray b => b = s.bottom - 1
  | .popStoreBottom b a => b = s.bottom - 1 ∧ a = s.array
  | .popLoadTop b a => b = s.bottom ∧ a = s.array
  | .popLoad b a t => b = s.bottom ∧ a = s.array ∧ t ≤ b ∧ t ≤ s.top
  | .popCas b t item => b = s.bottom ∧ t = b ∧ t ≤ s.top ∧ item = s.current.load b
  | .popRestoreBottom b _ => b = s.bottom ∧ s.top = b + 1

/-- What a thief knows as long as `top_` is what it read. -/
def ThiefInv (s : State ι α) : Thief α → Prop
  | .idle | .loadTop | .ret _ => True
  | .loadBottom t => t ≤ s.top
  | .loadArray t => t ≤ s.top ∧ (s.top = t → t < s.absBottom)
  | .load t a => t ≤ s.top ∧ a ≤ s.array ∧
    (s.top = t → t < s.absBottom ∧ (s.heap a).load t = s.current.load t)
  | .cas t item => t ≤ s.top ∧ (s.top = t → t < s.absBottom ∧ item = s.current.load t)

structure DequeInv (s : State ι α) : Prop where
  top_nonneg : 0 ≤ s.top
  top_le : s.top ≤ s.absBottom
  fits : s.absBottom - s.top ≤ s.current.capacity
  array_lt : s.array < s.allocated
  owner : OwnerInv s s.owner
  thieves : ∀ i, ThiefInv s (s.thieves i)

omit [DecidableEq ι] in
theorem dequeInv_initial (a : Buffer α) : DequeInv (initial a : State ι α) where
  top_nonneg := le_refl _
  top_le := le_refl _
  fits := by simp [initial, State.absBottom, Owner.absBottom]
  array_lt := Nat.zero_lt_one
  owner := trivial
  thieves _ := trivial

/-- What the thieves know survives a step that keeps `top_` and the item there, or moves `top_`. -/
structure KeepsTop (s s' : State ι α) : Prop where
  top : s.top ≤ s'.top
  array : s.array ≤ s'.array
  absBottom : s'.top = s.top → s.top < s.absBottom → s.top < s'.absBottom
  load : s'.top = s.top → s.top < s.absBottom → s'.current.load s.top = s.current.load s.top
  heap : s'.top = s.top → s.top < s.absBottom → ∀ a ≤ s.array,
    (s.heap a).load s.top = s.current.load s.top → (s'.heap a).load s.top = s.current.load s.top

omit [DecidableEq ι] in
theorem ThiefInv.keep {s s' : State ι α} (hk : KeepsTop s s') {l : Thief α}
    (h : ThiefInv s l) : ThiefInv s' l := by
  have htop := hk.top
  cases l with
  | idle | loadTop | ret item => trivial
  | loadBottom t => exact le_trans h htop
  | loadArray t =>
    obtain ⟨hle, hlt⟩ := h
    refine ⟨by omega, fun he => ?_⟩
    have hs : s.top = t := by omega
    have := hk.absBottom (by omega) (hs ▸ hlt hs)
    omega
  | load t a =>
    obtain ⟨hle, ha, hlt⟩ := h
    refine ⟨by omega, le_trans ha hk.array, fun he => ?_⟩
    obtain rfl : s.top = t := by omega
    obtain ⟨hb, hl⟩ := hlt rfl
    rw [hk.load he hb]
    exact ⟨hk.absBottom he hb, hk.heap he hb a ha hl⟩
  | cas t item =>
    obtain ⟨hle, hlt⟩ := h
    refine ⟨by omega, fun he => ?_⟩
    obtain rfl : s.top = t := by omega
    obtain ⟨hb, hl⟩ := hlt rfl
    rw [hk.load he hb]
    exact ⟨hk.absBottom he hb, hl⟩

omit [DecidableEq ι] in
/-- A step that leaves the buffers alone. -/
theorem KeepsTop.of_heap_eq {s s' : State ι α} (ht : s.top ≤ s'.top) (ha : s'.array = s.array)
    (hh : s'.heap = s.heap)
    (hb : s'.top = s.top → s.top < s.absBottom → s.top < s'.absBottom) : KeepsTop s s' where
  top := ht
  array := ha.ge
  absBottom := hb
  load _ _ := by simp only [State.current, ha, hh]
  heap _ _ a _ hl := by rw [hh]; exact hl

omit [DecidableEq ι] in
/-- The owner moves on without touching shared memory. -/
theorem DequeInv.setOwner {s : State ι α} (h : DequeInv s) {o : Owner α} (ho : OwnerInv s o)
    (hle : s.top ≤ o.absBottom s.bottom) (hge : o.absBottom s.bottom ≤ s.absBottom)
    (hlt : s.top < s.absBottom → s.top < o.absBottom s.bottom) :
    DequeInv { s with owner := o } where
  top_nonneg := h.top_nonneg
  top_le := hle
  fits := by
    have := h.fits
    change o.absBottom s.bottom - s.top ≤ s.current.capacity
    omega
  array_lt := h.array_lt
  owner := by cases o <;> exact ho
  thieves i := by
    have hk : KeepsTop s { s with owner := o } := .of_heap_eq le_rfl rfl rfl fun _ => hlt
    exact (h.thieves i).keep hk

omit [DecidableEq ι] in
theorem DequeInv.setOwner_eq {s : State ι α} (h : DequeInv s) {o : Owner α}
    (ho : OwnerInv s o) (he : o.absBottom s.bottom = s.absBottom) :
    DequeInv { s with owner := o } :=
  h.setOwner ho (he ▸ h.top_le) he.le fun hlt => he ▸ hlt

omit [DecidableEq ι] in
/-- The owner stores to `bottom_`. -/
theorem DequeInv.setBottom {s : State ι α} (h : DequeInv s) {o : Owner α} {b : Int}
    (ho : OwnerInv { s with owner := o, bottom := b } o) (hle : s.absBottom ≤ o.absBottom b)
    (hfit : o.absBottom b - s.top ≤ s.current.capacity) :
    DequeInv { s with owner := o, bottom := b } where
  top_nonneg := h.top_nonneg
  top_le := le_trans h.top_le hle
  fits := hfit
  array_lt := h.array_lt
  owner := ho
  thieves i := by
    have hk : KeepsTop s { s with owner := o, bottom := b } :=
      .of_heap_eq le_rfl rfl rfl fun _ hlt => lt_of_lt_of_le hlt hle
    exact (h.thieves i).keep hk

omit [DecidableEq ι] in
/-- The owner writes a buffer that is not the current one, or an index beyond the items. -/
theorem DequeInv.setHeap {s : State ι α} (h : DequeInv s) {o : Owner α} {n : Nat}
    {a : Buffer α} {m : Nat} (ho : OwnerInv { s with
      owner := o, heap := Function.update s.heap n a, allocated := m } o)
    (hb : o.absBottom s.bottom = s.absBottom) (hm : s.allocated ≤ m)
    (hn : s.array < n ∨ n = s.array ∧ a.capacity = s.current.capacity ∧
      ∀ j, s.top ≤ j → j < s.absBottom → a.load j = s.current.load j) :
    DequeInv { s with owner := o, heap := Function.update s.heap n a, allocated := m } := by
  have hcap : (Function.update s.heap n a s.array).capacity = s.current.capacity := by
    rcases hn with hn | ⟨rfl, hc, -⟩
    · rw [Function.update_of_ne (by omega), State.current]
    · rw [Function.update_self, hc]
  have hload (hlt : s.top < s.absBottom) :
      (Function.update s.heap n a s.array).load s.top = s.current.load s.top := by
    rcases hn with hn | ⟨rfl, -, hl⟩
    · rw [Function.update_of_ne (by omega), State.current]
    · rw [Function.update_self, hl _ le_rfl hlt]
  have hk : KeepsTop s { s with owner := o, heap := Function.update s.heap n a, allocated := m } :=
    { top := le_rfl
      array := le_rfl
      absBottom := fun _ hlt => lt_of_lt_of_eq hlt hb.symm
      load := fun _ hlt => hload hlt
      heap := fun _ hlt x hx hl => by
        by_cases hxn : x = n
        · obtain rfl : x = s.array := by rcases hn with hn | ⟨hn, -⟩ <;> omega
          exact hload hlt
        · change (Function.update s.heap n a x).load s.top = _
          rw [Function.update_of_ne hxn, hl] }
  exact
    { top_nonneg := h.top_nonneg
      top_le := h.top_le.trans_eq hb.symm
      fits := by
        have := h.fits
        change o.absBottom s.bottom - s.top ≤ (Function.update s.heap n a s.array).capacity
        rw [hb, hcap]
        exact this
      array_lt := lt_of_lt_of_le h.array_lt hm
      owner := ho
      thieves := fun i => (h.thieves i).keep hk }

omit [DecidableEq ι] in
/-- The owner makes the copy the current buffer. -/
theorem DequeInv.install {s : State ι α} (h : DequeInv s) {item : α} {b i : Int}
    {old new : Nat} (hown : s.owner = .resizeLoad item b old new i) (hi : b ≤ i) :
    DequeInv { s with
      owner := .pushStore item b new
      array := new
      garbage := s.garbage ++ [old] } := by
  have ho := h.owner
  rw [hown] at ho
  obtain ⟨rfl, rfl, hlt, hnew, hcap, -, hcopy⟩ := ho
  have hB : s.absBottom = s.bottom := by rw [State.absBottom, hown]; rfl
  have hfits := h.fits
  have hpos := s.current.pos
  rw [hB] at hfits
  have hk : KeepsTop s { s with
      owner := .pushStore item s.bottom new
      array := new
      garbage := s.garbage ++ [s.array] } :=
    { top := le_rfl
      array := hlt.le
      absBottom := fun _ hl => lt_of_lt_of_eq hl hB
      load := fun _ hl => hcopy _ le_rfl (by omega)
      heap := fun _ _ a _ hl => hl }
  exact
    { top_nonneg := h.top_nonneg
      top_le := h.top_le.trans_eq hB
      fits := by
        change s.bottom - s.top ≤ (s.heap new).capacity
        rw [hcap]
        push_cast
        omega
      array_lt := hnew
      owner := ⟨rfl, rfl, by
        change s.bottom - s.top < (s.heap new).capacity
        rw [hcap]
        push_cast
        omega⟩
      thieves := fun j => (h.thieves j).keep hk }

omit [DecidableEq ι] in
/-- Somebody takes the oldest item by raising `top_`. -/
theorem OwnerInv.raiseTop {s s' : State ι α} {o : Owner α} (h : OwnerInv s o)
    (ht : s'.top = s.top + 1) (hlt : s.top < o.absBottom s.bottom) (hb : s'.bottom = s.bottom)
    (ha : s'.array = s.array) (hh : s'.heap = s.heap) (hm : s'.allocated = s.allocated) :
    OwnerInv s' o := by
  have hc : s'.current = s.current := by rw [State.current, State.current, ha, hh]
  cases o with
  | popRestoreBottom b item =>
    obtain ⟨rfl, he⟩ := h
    simp only [Owner.absBottom] at hlt
    omega
  | resizeLoad item b old new i =>
    obtain ⟨h1, h2, h3, h4, h5, h6, h7⟩ := h
    refine ⟨by omega, by omega, by omega, by omega, by rw [hh, hc, h5], h6, fun j hj hji => ?_⟩
    rw [hh, hc]
    exact h7 j (by omega) hji
  | resizeStore item b old new i val =>
    obtain ⟨⟨h1, h2, h3, h4, h5, h6, h7⟩, h8, h9⟩ := h
    refine ⟨⟨by omega, by omega, by omega, by omega, by rw [hh, hc, h5], h6, fun j hj hji => ?_⟩,
      h8, by rw [hc, h9]⟩
    rw [hh, hc]
    exact h7 j (by omega) hji
  | idle | pushLoadBottom item | pushReturn | popLoadBottom | popReturn item => trivial
  | pushStoreBottom item b =>
    obtain ⟨h1, h2, h3⟩ := h
    exact ⟨by omega, by rw [hc]; omega, by rw [hc, h3]⟩
  | popCas b t item =>
    obtain ⟨h1, h2, h3, h4⟩ := h
    exact ⟨by omega, h2, by omega, by rw [hc, h4]⟩
  | _ =>
    simp only [OwnerInv, ha, hb, hc, ht] at h ⊢
    omega

theorem DequeInv.setThief {s : State ι α} (h : DequeInv s) {i : ι} {l : Thief α}
    (hl : ThiefInv s l) : DequeInv (s.setThief i l) := by
  have hk : KeepsTop s (s.setThief i l) := .of_heap_eq le_rfl rfl rfl fun _ hlt => hlt
  refine
    { top_nonneg := h.top_nonneg
      top_le := h.top_le
      fits := h.fits
      array_lt := h.array_lt
      owner := ?_
      thieves := fun j => ?_ }
  · have ho := h.owner
    change OwnerInv (s.setThief i l) s.owner
    revert ho
    cases s.owner <;> exact id
  · by_cases hj : j = i
    · subst hj
      simpa [State.setThief] using hl.keep hk
    · simpa [State.setThief, hj] using (h.thieves j).keep hk

/-- Thief `i` takes the oldest item. -/
theorem DequeInv.stolen {s : State ι α} (h : DequeInv s) {i : ι} {t : Int} {item : α}
    (hl : s.thieves i = .cas t item) (ht : s.top = t) :
    DequeInv { s with
      thieves := Function.update s.thieves i (.ret (some item))
      top := t + 1 } := by
  have hi := h.thieves i
  rw [hl] at hi
  have hlt : t < s.absBottom := (hi.2 ht).1
  have hnonneg := h.top_nonneg
  have hfits := h.fits
  have hk : KeepsTop s { s with
      thieves := Function.update s.thieves i (.ret (some item))
      top := t + 1 } :=
    .of_heap_eq (by dsimp only; omega) rfl rfl fun he => by dsimp only at he; omega
  exact
    { top_nonneg := by dsimp only; omega
      top_le := hlt
      fits := by
        change s.absBottom - (t + 1) ≤ s.current.capacity
        omega
      array_lt := h.array_lt
      owner := h.owner.raiseTop (by dsimp only; omega) (ht ▸ hlt) rfl rfl rfl rfl
      thieves := fun j => by
        by_cases hj : j = i
        · subst hj
          simp [ThiefInv]
        · simpa [hj] using (h.thieves j).keep hk }

omit [DecidableEq ι] in
/-- The owner takes the last item. -/
theorem DequeInv.popped {s : State ι α} (h : DequeInv s) {b t : Int} {item : α}
    (hown : s.owner = .popCas b t item) (ht : s.top = t) :
    DequeInv { s with owner := .popRestoreBottom b (some item), top := t + 1 } := by
  have ho := h.owner
  rw [hown] at ho
  obtain ⟨hb, htb, -⟩ := ho
  have hnonneg := h.top_nonneg
  have hk : KeepsTop s { s with owner := .popRestoreBottom b (some item), top := t + 1 } :=
    .of_heap_eq (by dsimp only; omega) rfl rfl fun he => by dsimp only at he; omega
  exact
    { top_nonneg := by dsimp only; omega
      top_le := by simp only [State.absBottom, Owner.absBottom]; omega
      fits := by
        simp only [State.absBottom, Owner.absBottom]
        omega
      array_lt := h.array_lt
      owner := ⟨hb, by dsimp only; omega⟩
      thieves := fun j => (h.thieves j).keep hk }

omit [DecidableEq ι] in
theorem absBottom_of {s : State ι α} {o : Owner α} (ho : s.owner = o) :
    s.absBottom = o.absBottom s.bottom := by
  rw [State.absBottom, ho]

omit [DecidableEq ι] in
theorem DequeInv.bottom_le {s : State ι α} (h : DequeInv s) : s.bottom ≤ s.absBottom := by
  have ho := h.owner
  unfold State.absBottom
  revert ho
  cases s.owner <;> simp only [OwnerInv, Owner.absBottom] <;> intro ho <;>
    (try split_ifs) <;> omega

theorem DequeInv.thiefMoves {s t : State ι α} {i : ι} (h : DequeInv s)
    (hm : ThiefMoves s i t) : DequeInv t := by
  cases hm with
  | loadTop hl => exact h.setThief (le_refl _)
  | nonempty hl ht =>
    have hi := h.thieves i
    rw [hl] at hi
    exact h.setThief ⟨hi, fun _ => lt_of_lt_of_le ht h.bottom_le⟩
  | empty hl => exact h.setThief trivial
  | loadArray hl =>
    have hi := h.thieves i
    rw [hl] at hi
    exact h.setThief ⟨hi.1, le_rfl, fun he => ⟨hi.2 he, rfl⟩⟩
  | load hl =>
    have hi := h.thieves i
    rw [hl] at hi
    exact h.setThief ⟨hi.1, hi.2.2⟩
  | won hl ht => exact h.stolen hl ht
  | lost hl => exact h.setThief trivial

omit [DecidableEq ι] in
/-- Storing at `bottom_` keeps the items while there is room. -/
theorem DequeInv.load_store_bottom {s : State ι α} (h : DequeInv s) (item : α)
    (hroom : s.bottom - s.top < s.current.capacity) {j : Int} (hj : s.top ≤ j)
    (hjb : j < s.bottom) : (s.current.store s.bottom item).load j = s.current.load j := by
  have := h.top_nonneg
  exact Buffer.load_store_ne _ _ (by omega) (by omega) (by omega) (by omega) (by omega)

omit [DecidableEq ι] in
/-- One iteration of the copy loop. -/
theorem Copied.succ {s : State ι α} {item : α} {b i : Int} {old new : Nat} {val : α}
    (h : Copied s b old new i) (h0 : 0 ≤ s.top) (hf : s.bottom - s.top ≤ s.current.capacity)
    (hi : i < b) (hv : val = s.current.load i) :
    Copied { s with
      owner := .resizeLoad item b old new (i + 1)
      heap := Function.update s.heap new ((s.heap new).store i val) } b old new (i + 1) := by
  obtain ⟨h1, h2, h3, h4, h5, h6, h7⟩ := h
  have hcur : Function.update s.heap new ((s.heap new).store i val) s.array = s.current :=
    Function.update_of_ne (ne_of_lt h3) _ _
  refine ⟨h1, h2, h3, h4, ?_, by omega, fun j hj hji => ?_⟩
  · change (Function.update s.heap new _ new).capacity
      = (Function.update s.heap new _ s.array).capacity * 2
    rw [hcur, Function.update_self, Buffer.store_capacity, h5]
  · change (Function.update s.heap new _ new).load j = (Function.update s.heap new _ s.array).load j
    rw [hcur, Function.update_self]
    dsimp only at hj
    by_cases hij : i = j
    · rw [← hij, Buffer.load_store_self, hv]
    · rw [Buffer.load_store_ne _ _ h6 (by omega) hij (by omega) (by omega)]
      exact h7 j hj (by omega)

omit [DecidableEq ι] in
theorem DequeInv.ownerMoves {s t : State ι α} (h : DequeInv s) (hm : OwnerMoves s t) :
    DequeInv t := by
  have hnonneg := h.top_nonneg
  have htop := h.top_le
  have hfits := h.fits
  have hown := h.owner
  cases hm with
  | pushLoadBottom ho => exact h.setOwner_eq rfl (by rw [absBottom_of ho]; rfl)
  | pushLoadTop ho =>
    rw [ho] at hown
    exact h.setOwner_eq ⟨hown, hnonneg, le_rfl⟩ (by rw [absBottom_of ho]; rfl)
  | full ho =>
    rw [ho] at hown
    obtain ⟨h1, h2, h3⟩ := hown
    exact h.setOwner_eq ⟨h1, h2, h3, rfl⟩ (by rw [absBottom_of ho]; rfl)
  | hasRoom ho hr =>
    rw [ho] at hown
    obtain ⟨h1, h2, h3⟩ := hown
    exact h.setOwner_eq ⟨h1, rfl, by omega⟩ (by rw [absBottom_of ho]; rfl)
  | alloc junk ho =>
    rw [ho] at hown
    obtain ⟨h1, h2, h3, rfl⟩ := hown
    have harr := h.array_lt
    refine h.setHeap ⟨h1, rfl, harr, Nat.lt_succ_self _, ?_, h2, fun j hj hji => by
      dsimp only at hj; omega⟩ (by rw [absBottom_of ho]; rfl) (Nat.le_succ _) (.inl harr)
    simp [State.current, Function.update_of_ne (ne_of_lt harr)]
  | copyLoad ho hi =>
    rw [ho] at hown
    obtain ⟨h1, rfl, h3⟩ := hown
    exact h.setOwner_eq ⟨⟨h1, rfl, h3⟩, hi, rfl⟩ (by rw [absBottom_of ho]; rfl)
  | install ho hi => exact h.install ho hi
  | copyStore ho =>
    rw [ho] at hown
    obtain ⟨hc, hi, hv⟩ := hown
    rw [absBottom_of ho] at hfits
    exact h.setHeap (hc.succ hnonneg hfits hi hv) (by rw [absBottom_of ho]; rfl) le_rfl
      (.inl hc.2.2.1)
  | store ho =>
    rw [ho] at hown
    obtain ⟨rfl, rfl, hroom⟩ := hown
    refine h.setHeap ⟨rfl, ?_, ?_⟩ (by rw [absBottom_of ho]; rfl) le_rfl
      (.inr ⟨rfl, rfl, fun j hj hjb => ?_⟩)
    · simpa [State.current] using hroom
    · simp [State.current]
    · rw [absBottom_of ho] at hjb
      exact h.load_store_bottom _ hroom hj hjb
  | publish ho =>
    rw [ho] at hown
    obtain ⟨h1, h2, -⟩ := hown
    refine h.setBottom trivial ?_ ?_
    · rw [absBottom_of ho]
      simp only [Owner.absBottom]
      omega
    · simp only [Owner.absBottom]
      omega
  | popLoadBottom ho => exact h.setOwner_eq rfl (by rw [absBottom_of ho]; rfl)
  | popLoadArray ho =>
    rw [ho] at hown
    exact h.setOwner_eq ⟨hown, rfl⟩ (by rw [absBottom_of ho]; rfl)
  | lower ho =>
    rw [ho] at hown
    obtain ⟨h1, h2⟩ := hown
    rw [absBottom_of ho] at hfits
    simp only [Owner.absBottom] at hfits
    refine h.setBottom ⟨rfl, h2⟩ ?_ ?_
    · rw [absBottom_of ho]
      simp only [Owner.absBottom]
      omega
    · simp only [Owner.absBottom]
      omega
  | nonempty ho ht =>
    rw [ho] at hown
    obtain ⟨h1, h2⟩ := hown
    have hB : s.absBottom = _ := absBottom_of ho
    refine h.setOwner ⟨h1, h2, ht, le_rfl⟩ ?_ ?_ ?_ <;>
      simp only [Owner.absBottom] at hB ⊢ <;> split_ifs <;> omega
  | empty ho ht =>
    rw [ho] at hown
    rw [absBottom_of ho] at htop
    simp only [Owner.absBottom] at htop
    exact h.setOwner_eq ⟨hown.1, by omega⟩ (by rw [absBottom_of ho]; rfl)
  | lastItem ho ht =>
    rw [ho] at hown
    obtain ⟨h1, rfl, -, h4⟩ := hown
    exact h.setOwner_eq ⟨h1, ht, h4, rfl⟩ (by rw [absBottom_of ho]; simp [Owner.absBottom, ht])
  | take ho ht =>
    rw [ho] at hown
    obtain ⟨h1, -, h3, -⟩ := hown
    refine h.setOwner_eq trivial ?_
    rw [absBottom_of ho]
    simp only [Owner.absBottom]
    split_ifs <;> omega
  | won ho ht => exact h.popped ho ht
  | lost ho ht =>
    rw [ho] at hown
    obtain ⟨h1, h2, h3, -⟩ := hown
    rw [absBottom_of ho] at htop
    simp only [Owner.absBottom] at htop
    exact h.setOwner_eq ⟨h1, by omega⟩ (by rw [absBottom_of ho]; rfl)
  | restore ho =>
    rw [ho] at hown
    obtain ⟨h1, h2⟩ := hown
    have := s.current.pos
    refine h.setBottom trivial ?_ ?_
    · rw [absBottom_of ho]
      rfl
    · simp only [Owner.absBottom]
      omega

theorem DequeInv.step {s t : State ι α} {a : Action ι α} (h : DequeInv s)
    (hs : step s a = some t) : DequeInv t := by
  cases moves_of_step hs with
  | callPush item ho => exact h.setOwner_eq trivial (by rw [absBottom_of ho]; rfl)
  | callPop ho => exact h.setOwner_eq trivial (by rw [absBottom_of ho]; rfl)
  | callSteal hl => exact h.setThief trivial
  | owner hm => exact h.ownerMoves hm
  | thief hm => exact h.thiefMoves hm
  | retPush ho => exact h.setOwner_eq trivial (by rw [absBottom_of ho]; rfl)
  | retPop ho => exact h.setOwner_eq trivial (by rw [absBottom_of ho]; rfl)
  | retSteal hl => exact h.setThief trivial

/-- In every reachable state the items lie between `top_` and `bottom_` in the current buffer. -/
theorem dequeInv_of_reachable {s : State ι α} (h : system.Reachable s) : DequeInv s := by
  refine System.Reachable.invariant ?_ (fun s a t hi hs => hi.step hs) h
  rintro s ⟨a, rfl⟩
  exact dequeInv_initial a

end Jellybean.Scheduler.WorkStealingDeque
