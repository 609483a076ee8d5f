import Jellybean.Framework.Linearizability
import Jellybean.Scheduler.WorkStealingDequeInvariant

namespace Jellybean.Scheduler.WorkStealingDeque

variable {ι α : Type*} [DecidableEq ι]

inductive Op (α : Type*) where
  | push (item : α)
  | pop
  | steal

inductive Res (α : Type*) where
  | pushed
  | got (item : Option α)

/-- The double-ended sequence, oldest item first. A steal may fail at any time. -/
inductive DequeApply : List α → Op α → Res α → List α → Prop
  | push (q : List α) (item : α) : DequeApply q (.push item) .pushed (q ++ [item])
  | pop (q : List α) (item : α) : DequeApply (q ++ [item]) .pop (.got (some item)) q
  | popEmpty : DequeApply [] .pop (.got none) []
  | steal (q : List α) (item : α) : DequeApply (item :: q) .steal (.got (some item)) q
  | stealFailed (q : List α) : DequeApply q .steal (.got none) q

def deque : SeqObject (List α) (Op α) (Res α) := ⟨[], DequeApply⟩

/-! The values of a function on an interval of indices. -/

def window (f : Int → α) (lo hi : Int) : List α :=
  (List.range (hi - lo).toNat).map fun k : Nat => f (lo + k)

theorem window_self (f : Int → α) (lo : Int) : window f lo lo = [] := by
  simp [window]

theorem window_snoc (f : Int → α) {lo hi : Int} (h : lo ≤ hi) :
    window f lo (hi + 1) = window f lo hi ++ [f hi] := by
  have hn : (hi + 1 - lo).toNat = (hi - lo).toNat + 1 := by omega
  have he : lo + ((hi - lo).toNat : Int) = hi := by omega
  rw [window, hn, List.range_succ, List.map_append, List.map_singleton, he, window]

theorem window_cons (f : Int → α) {lo hi : Int} (h : lo < hi) :
    window f lo hi = f lo :: window f (lo + 1) hi := by
  have hn : (hi - lo).toNat = (hi - (lo + 1)).toNat + 1 := by omega
  rw [window, hn, List.range_succ_eq_map, List.map_cons, List.map_map, window]
  congr 1
  · simp
  · refine List.map_congr_left fun k _ => ?_
    simp only [Function.comp, Nat.cast_succ]
    congr 1
    omega

theorem window_congr {f g : Int → α} {lo hi : Int} (h : ∀ j, lo ≤ j → j < hi → f j = g j) :
    window f lo hi = window g lo hi := by
  refine List.map_congr_left fun k hk => ?_
  have := List.mem_range.mp hk
  exact h _ (by omega) (by omega)

/-- The abstract sequence of a state. -/
def State.contents (s : State ι α) : List α := window s.current.load s.top s.absBottom

/-- A `pop` that read `t < b` has taken the item it is about to load. -/
def State.ownerStatus (s : State ι α) : Status (Op α) (Res α) :=
  match s.owner with
  | .idle => .idle
  | .pushLoadBottom item | .pushLoadTop item _ | .pushLoadArray item _ _
  | .resizeAlloc item _ _ _ | .resizeLoad item _ _ _ _ | .resizeStore item _ _ _ _ _
  | .pushStore item _ _ | .pushStoreBottom item _ => .called (.push item)
  | .pushReturn => .performed .pushed
  | .popLoadBottom | .popLoadArray _ | .popStoreBottom _ _ | .popLoadTop _ _
  | .popCas _ _ _ => .called .pop
  | .popLoad b a t =>
    if t < b then .performed (.got (some ((s.heap a).load b))) else .called .pop
  | .popRestoreBottom _ item | .popReturn item => .performed (.got item)

def Thief.status : Thief α → Status (Op α) (Res α)
  | .idle => .idle
  | .ret item => .performed (.got item)
  | _ => .called .steal

/-- Thread `none` is the owner. -/
def State.status (s : State ι α) : Option ι → Status (Op α) (Res α)
  | none => s.ownerStatus
  | some i => (s.thieves i).status

def State.toAtomic (s : State ι α) : Atomic (List α) (Option ι) (Op α) (Res α) :=
  ⟨s.contents, s.status⟩

/-- The calls and returns visible to the threads. -/
def event (s : State ι α) : Action ι α → Option (CallEvent (Option ι) (Op α) (Res α))
  | .callPush item => some (.call none (.push item))
  | .callPop => some (.call none .pop)
  | .callSteal i => some (.call (some i) .steal)
  | .owner _ | .thief _ => none
  | .retOwner =>
    match s.owner with
    | .pushReturn => some (.ret none .pushed)
    | .popReturn item => some (.ret none (.got item))
    | _ => none
  | .retThief i =>
    match s.thieves i with
    | .ret item => some (.ret (some i) (.got item))
    | _ => none

theorem status_setOwner {s t : State ι α} (ht : t.thieves = s.thieves) :
    t.status = Function.update s.status none t.ownerStatus := by
  funext j
  cases j with
  | none => rw [Function.update_self]; rfl
  | some i => rw [Function.update_of_ne (by simp)]; simp only [State.status, ht]

theorem status_setThief {s t : State ι α} {i : ι} {l : Thief α}
    (ht : t.thieves = Function.update s.thieves i l) (ho : t.ownerStatus = s.ownerStatus) :
    t.status = Function.update s.status (some i) l.status := by
  funext j
  cases j with
  | none => rw [Function.update_of_ne (by simp)]; exact ho
  | some k =>
    by_cases hk : k = i
    · subst hk
      simp [State.status, ht]
    · rw [Function.update_of_ne (by simpa using hk)]
      simp [State.status, ht, hk]

omit [DecidableEq ι] in
/-- Nothing observable happens. -/
theorem toAtomic_eq {s t : State ι α} (hc : t.contents = s.contents)
    (ho : t.ownerStatus = s.ownerStatus) (ht : t.thieves = s.thieves) :
    t.toAtomic = s.toAtomic := by
  have hst : t.status = s.status := by
    funext j
    cases j with
    | none => exact ho
    | some i => simp only [State.status, ht]
  rw [State.toAtomic, State.toAtomic, hc, hst]

/-- The operation of the owner takes effect. -/
theorem owner_perform {s t : State ι α} {op : Op α} {r : Res α} (ht : t.thieves = s.thieves)
    (hs : s.ownerStatus = .called op) (hr : t.ownerStatus = .performed r)
    (ha : DequeApply s.contents op r t.contents) :
    ∃ p, AtomicStep deque s.toAtomic none p t.toAtomic := by
  refine ⟨some (op, r), ?_⟩
  rw [State.toAtomic, State.toAtomic, status_setOwner ht, hr]
  exact .perform hs ha

/-- The steal of thief `i` takes effect. -/
theorem thief_perform {s t : State ι α} {i : ι} {item : Option α}
    (ht : t.thieves = Function.update s.thieves i (.ret item))
    (ho : t.ownerStatus = s.ownerStatus) (hs : (s.thieves i).status = .called .steal)
    (ha : DequeApply s.contents .steal (.got item) t.contents) :
    ∃ p, AtomicStep deque s.toAtomic none p t.toAtomic := by
  refine ⟨some (.steal, .got item), ?_⟩
  rw [State.toAtomic, State.toAtomic, status_setThief ht ho]
  exact .perform hs ha

omit [DecidableEq ι] in
theorem contents_eq {s t : State ι α} (ht : t.top = s.top) (hb : t.absBottom = s.absBottom)
    (hl : ∀ j, s.top ≤ j → j < s.absBottom → t.current.load j = s.current.load j) :
    t.contents = s.contents := by
  rw [State.contents, ht, hb]
  exact window_congr hl

omit [DecidableEq ι] in
/-- A `pop` that finds `top_` above its item finds the sequence empty. -/
theorem DequeInv.popEmpty {s t : State ι α} (h : DequeInv s) {b : Int}
    (hb : s.absBottom = b + 1) (ht : t = { s with owner := .popRestoreBottom b none })
    (hlt : b < s.top) : DequeApply s.contents .pop (.got none) t.contents := by
  subst ht
  have htop := h.top_le
  have he : s.top = b + 1 := by omega
  have hnil : window s.current.load s.top (b + 1) = [] := by rw [he, window_self]
  rw [State.contents, hb, hnil]
  exact hnil ▸ .popEmpty

/-- An access of the owner is invisible or the point where its operation takes effect. -/
theorem ownerMoves_refine {s t : State ι α} (h : DequeInv s) (hm : OwnerMoves s t) :
    t.toAtomic = s.toAtomic ∨ ∃ p, AtomicStep deque s.toAtomic none p t.toAtomic := by
  have hnonneg := h.top_nonneg
  have htop := h.top_le
  have hown := h.owner
  have quiet {o : Owner α} (hb : o.absBottom s.bottom = s.absBottom)
      (hs : State.ownerStatus { s with owner := o } = s.ownerStatus) :
      State.toAtomic { s with owner := o } = s.toAtomic :=
    toAtomic_eq (contents_eq rfl hb fun _ _ _ => rfl) hs rfl
  cases hm with
  | pushLoadBottom ho | pushLoadTop ho | full ho | hasRoom ho _ | copyLoad ho _
  | popLoadBottom ho | popLoadArray ho =>
    exact .inl (quiet (by rw [absBottom_of ho]; rfl) (by simp only [State.ownerStatus, ho]))
  | alloc junk ho =>
    refine .inl (toAtomic_eq (contents_eq rfl (by rw [absBottom_of ho]; rfl) fun j _ _ => ?_)
      (by simp only [State.ownerStatus, ho]) rfl)
    have := h.array_lt
    simp [State.current, Function.update_of_ne (ne_of_lt this)]
  | install ho hi =>
    rw [ho] at hown
    obtain ⟨rfl, -, -, -, -, -, hcopy⟩ := hown
    refine .inl (toAtomic_eq (contents_eq rfl (by rw [absBottom_of ho]; rfl) fun j hj hjb => ?_)
      (by simp only [State.ownerStatus, ho]) rfl)
    rw [absBottom_of ho] at hjb
    exact hcopy j hj (lt_of_lt_of_le hjb hi)
  | copyStore ho =>
    rw [ho] at hown
    obtain ⟨⟨-, -, hlt, -⟩, -⟩ := hown
    refine .inl (toAtomic_eq (contents_eq rfl (by rw [absBottom_of ho]; rfl) fun j _ _ => ?_)
      (by simp only [State.ownerStatus, ho]) rfl)
    simp [State.current, Function.update_of_ne (ne_of_lt hlt)]
  | @store item b a ho =>
    rw [ho] at hown
    obtain ⟨rfl, rfl, hroom⟩ := hown
    refine .inl (toAtomic_eq (contents_eq rfl (by rw [absBottom_of ho]; rfl) fun j hj hjb => ?_)
      (by simp only [State.ownerStatus, ho]) rfl)
    rw [absBottom_of ho] at hjb
    have hload := h.load_store_bottom item hroom hj hjb
    simpa [State.current] using hload
  | @publish item b ho =>
    rw [ho] at hown
    obtain ⟨rfl, -, rfl⟩ := hown
    have hs : s.ownerStatus = .called (.push (s.current.load s.bottom)) := by
      simp only [State.ownerStatus, ho]
    refine .inr (owner_perform rfl hs rfl ?_)
    rw [absBottom_of ho] at htop
    rw [State.contents, absBottom_of ho, State.contents]
    exact window_snoc s.current.load htop ▸ .push _ _
  | lower ho =>
    rw [ho] at hown
    obtain ⟨rfl, -⟩ := hown
    refine .inl (toAtomic_eq (contents_eq rfl ?_ fun _ _ _ => rfl)
      (by simp only [State.ownerStatus, ho]) rfl)
    rw [absBottom_of ho]
    simp [State.absBottom, Owner.absBottom]
  | @nonempty b a ho ht =>
    rw [ho] at hown
    obtain ⟨-, rfl⟩ := hown
    rcases lt_or_eq_of_le ht with hlt | heq
    · have hs : s.ownerStatus = .called .pop := by simp only [State.ownerStatus, ho]
      refine .inr (owner_perform (r := .got (some (s.current.load b))) rfl hs ?_ ?_)
      · simp [State.ownerStatus, hlt, State.current]
      · have hb : s.absBottom = b + 1 := absBottom_of ho
        rw [State.contents, hb, window_snoc _ ht, State.contents]
        simpa [State.absBottom, Owner.absBottom, hlt] using .pop _ _
    · refine .inl (quiet (by rw [absBottom_of ho]; simp [Owner.absBottom, heq]) ?_)
      simp [State.ownerStatus, ho, heq]
  | @empty b a ho ht =>
    have hs : s.ownerStatus = .called .pop := by simp only [State.ownerStatus, ho]
    refine .inr (owner_perform rfl hs rfl ?_)
    exact h.popEmpty (absBottom_of ho) rfl ht
  | lastItem ho ht =>
    refine .inl (quiet (by rw [absBottom_of ho]; simp [Owner.absBottom, ht]) ?_)
    simp [State.ownerStatus, ho, ht]
  | take ho ht =>
    rw [ho] at hown
    obtain ⟨rfl, -, hle, -⟩ := hown
    have hlt := lt_of_le_of_ne hle ht
    refine .inl (quiet ?_ ?_)
    · rw [absBottom_of ho]
      simp [Owner.absBottom, hlt]
    · simp [State.ownerStatus, ho, hlt]
  | @won b t item ho ht =>
    rw [ho] at hown
    obtain ⟨-, rfl, -, rfl⟩ := hown
    have hs : s.ownerStatus = .called .pop := by simp only [State.ownerStatus, ho]
    have hb : s.absBottom = t + 1 := absBottom_of ho
    refine .inr (owner_perform rfl hs rfl ?_)
    rw [State.contents, hb, ht, window_snoc _ le_rfl, window_self]
    have he : State.contents { s with
        owner := .popRestoreBottom t (some (s.current.load t)), top := t + 1 } = [] :=
      window_self _ _
    rw [he]
    exact .pop [] _
  | @lost b t item ho ht =>
    rw [ho] at hown
    obtain ⟨-, rfl, hle, -⟩ := hown
    have hs : s.ownerStatus = .called .pop := by simp only [State.ownerStatus, ho]
    refine .inr (owner_perform rfl hs rfl ?_)
    exact h.popEmpty (absBottom_of ho) rfl (lt_of_le_of_ne hle (Ne.symm ht))
  | restore ho =>
    refine .inl (toAtomic_eq (contents_eq rfl ?_ fun _ _ _ => rfl)
      (by simp only [State.ownerStatus, ho]) rfl)
    rw [absBottom_of ho]
    rfl

/-- An access of a thief is invisible or the point where its steal takes effect. -/
theorem thiefMoves_refine {s t : State ι α} {i : ι} (h : DequeInv s) (hm : ThiefMoves s i t) :
    t.toAtomic = s.toAtomic ∨ ∃ p, AtomicStep deque s.toAtomic none p t.toAtomic := by
  have quiet {l : Thief α} (hl : l.status = (s.thieves i).status) :
      (s.setThief i l).toAtomic = s.toAtomic := by
    have hst : (s.setThief i l).status = s.status := by
      rw [status_setThief (s := s) (t := s.setThief i l) rfl rfl, hl]
      exact Function.update_eq_self (some i) s.status
    exact congrArg (Atomic.mk s.contents) hst
  have failed (hl : (s.thieves i).status = .called .steal) :
      ∃ p, AtomicStep deque s.toAtomic none p (s.setThief i (.ret none)).toAtomic :=
    thief_perform rfl rfl hl (.stealFailed _)
  cases hm with
  | loadTop hl | nonempty hl _ | loadArray hl | load hl => exact .inl (quiet (by rw [hl]; rfl))
  | empty hl | lost hl => exact .inr (failed (by rw [hl]; rfl))
  | @won t item hl ht =>
    have hi := h.thieves i
    rw [hl] at hi
    obtain ⟨hlt, rfl⟩ := hi.2 ht
    refine .inr (thief_perform rfl rfl (by rw [hl]; rfl) ?_)
    rw [State.contents, ht, window_cons _ hlt]
    exact .steal _ _

theorem toAtomic_setOwner {s : State ι α} {o : Owner α}
    (hb : o.absBottom s.bottom = s.absBottom) :
    State.toAtomic { s with owner := o } = ⟨s.toAtomic.object,
      Function.update s.toAtomic.status none (State.ownerStatus { s with owner := o })⟩ := by
  have hc : State.contents { s with owner := o } = s.contents :=
    contents_eq rfl hb fun _ _ _ => rfl
  have hst : State.status { s with owner := o } = _ := status_setOwner (s := s) rfl
  rw [State.toAtomic, hc, hst]
  rfl

theorem toAtomic_setThief {s : State ι α} {i : ι} {l : Thief α} :
    (s.setThief i l).toAtomic
      = ⟨s.toAtomic.object, Function.update s.toAtomic.status (some i) l.status⟩ := by
  have hst : (s.setThief i l).status = _ := status_setThief (s := s) rfl rfl
  rw [State.toAtomic, hst]
  rfl

/-- The deque refines the atomic double-ended sequence. -/
theorem refines_deque :
    (system : System (State ι α) (Action ι α)).Refines DequeInv event deque State.toAtomic where
  init := by
    rintro s ⟨a, rfl⟩
    have hc : (initial a : State ι α).contents = [] := window_self _ _
    rw [State.toAtomic, hc]
    congr 1
    funext j
    cases j <;> rfl
  step s a t hinv hs := by
    cases moves_of_step hs with
    | callPush item ho =>
      rw [toAtomic_setOwner (by rw [absBottom_of ho]; rfl)]
      exact .inr ⟨none, .call (by simp only [State.toAtomic, State.status, State.ownerStatus, ho])⟩
    | callPop ho =>
      rw [toAtomic_setOwner (by rw [absBottom_of ho]; rfl)]
      exact .inr ⟨none, .call (by simp only [State.toAtomic, State.status, State.ownerStatus, ho])⟩
    | callSteal hl =>
      rw [toAtomic_setThief]
      exact .inr ⟨none, .call (by simp only [State.toAtomic, State.status, Thief.status, hl])⟩
    | owner hm => exact (ownerMoves_refine hinv hm).imp (⟨rfl, ·⟩) id
    | thief hm => exact (thiefMoves_refine hinv hm).imp (⟨rfl, ·⟩) id
    | retPush ho =>
      rw [toAtomic_setOwner (by rw [absBottom_of ho]; rfl)]
      simp only [event, ho]
      exact .inr ⟨none, .ret (by simp only [State.toAtomic, State.status, State.ownerStatus, ho])⟩
    | retPop ho =>
      rw [toAtomic_setOwner (by rw [absBottom_of ho]; rfl)]
      simp only [event, ho]
      exact .inr ⟨none, .ret (by simp only [State.toAtomic, State.status, State.ownerStatus, ho])⟩
    | retSteal hl =>
      rw [toAtomic_setThief]
      simp only [event, hl]
      exact .inr ⟨none, .ret (by simp only [State.toAtomic, State.status, Thief.status, hl])⟩

/-! No item is lost or duplicated. -/

/-- The item a call brings in or a result takes out. -/
def itemWeight : Status (Op α) (Res α) → Multiset α
  | .called (.push item) => {item}
  | .performed (.got (some item)) => {item}
  | _ => 0

theorem seqRun_items {L : List (Op α × Res α)} {q : List α} (h : SeqRun deque L q) :
    (L.map fun p => itemWeight (.called p.1)).sum
      = (L.map fun p => itemWeight (.performed p.2)).sum + (q : Multiset α) := by
  induction h with
  | init => simp [deque]
  | step _ ha ih =>
    rw [List.map_append, List.sum_append, List.map_append, List.sum_append, ih]
    cases ha with
    | push item => simp [itemWeight, ← Multiset.coe_add, add_assoc]
    | pop item => simp [itemWeight, ← Multiset.coe_add, add_assoc, add_comm]
    | steal item =>
      rw [← Multiset.cons_coe, ← Multiset.singleton_add]
      simp [itemWeight, add_assoc]
    | popEmpty | stealFailed => simp [itemWeight]

/-- Every run of the deque shows a history of the atomic double-ended sequence, which holds
afterwards what the buffer holds between `top_` and `bottom_`. The items of the pushes that
took effect are those taken by a pop or a steal and those still there; when no operation is in
progress, the items of all calls of `push` are those that were returned and those still there. -/
theorem deque_linearizable (a : Buffer α) (as : List (Action ι α)) {t : State ι α}
    (hr : system.run (initial a) as = some t) :
    ∃ L, AtomicRun deque (system.history event (initial a) as) L ⟨t.contents, t.status⟩ ∧
      (L.map fun p => itemWeight (.called p.1)).sum
        = (L.map fun p => itemWeight (.performed p.2)).sum + (t.contents : Multiset α) ∧
      (t.owner = .idle → (∀ i, t.thieves i = .idle) →
        callWeight itemWeight (system.history event (initial a) as)
          = retWeight itemWeight (system.history event (initial a) as)
            + (window t.current.load t.top t.bottom : Multiset α)) := by
  obtain ⟨L, hL⟩ := refines_deque.atomicRun (fun s ⟨a, hs⟩ => hs ▸ dequeInv_initial a)
    (fun s a t hi hs => hi.step hs) ⟨a, rfl⟩ hr
  have hitems := seqRun_items hL.seqRun
  refine ⟨L, hL, hitems, fun ho hl => ?_⟩
  have hidle (j : Option ι) : t.status j = .idle := by
    cases j with
    | none => simp only [State.status, State.ownerStatus, ho]
    | some i => simp only [State.status, Thief.status, hl i]
  have hw := hL.weight itemWeight rfl (T := ∅) fun j _ => hidle j
  have hc : t.toAtomic.object = window t.current.load t.top t.bottom := by
    change window _ _ t.absBottom = _
    rw [absBottom_of ho]
    rfl
  rw [hitems, hc, Finset.sum_empty, add_zero, ← add_assoc, add_right_comm] at hw
  exact add_right_cancel hw

/-- A buffer with a single slot. -/
def oneSlot : Buffer Nat := ⟨1, fun _ => 0, Nat.one_pos, rfl⟩

def ownerSteps (n : Nat) : List (Action Bool Nat) := List.replicate n (.owner fun _ => 0)

/-- Two pushes, the second of which replaces the buffer while a thief holds the old one, then
the thief reads the old buffer and wins. -/
def stealAcrossResize : List (Action Bool Nat) :=
  List.flatten [[.callPush 7], ownerSteps 5,
    [.retOwner, .callSteal true, .thief true, .thief true, .thief true, .callPush 8],
    ownerSteps 9, [.retOwner, .thief true, .thief true, .retThief true]]

theorem deque_linearizable_stealAcrossResize :
    ∃ t, system.run (initial oneSlot) stealAcrossResize = some t ∧ t.array = 1 ∧
      retWeight itemWeight (system.history event (initial oneSlot) stealAcrossResize) = {7} ∧
      ∃ L, AtomicRun deque (system.history event (initial oneSlot) stealAcrossResize) L
        ⟨t.contents, t.status⟩ := by
  have hmoved : (system.run (initial oneSlot) stealAcrossResize).map State.array = some 1 := by
    decide +kernel
  obtain ⟨t, ht, ha⟩ := Option.map_eq_some_iff.mp hmoved
  obtain ⟨L, hL, -⟩ := deque_linearizable oneSlot stealAcrossResize ht
  exact ⟨t, ht, ha, by decide +kernel, L, hL⟩

end Jellybean.Scheduler.WorkStealingDeque
