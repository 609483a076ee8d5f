import Mathlib.Tactic

namespace Jellybean

variable {σ κ υ ε α β : Type*}

namespace Bindings

/-- The values that are bound to a key, first to last. -/
def valuesOf [DecidableEq κ] (key : κ) (bindings : List (κ × υ)) : List υ :=
  (bindings.filter fun b => b.1 = key).map Prod.snd

variable [DecidableEq κ] {key : κ} {bindings : List (κ × υ)}

@[simp] theorem valuesOf_nil : valuesOf key ([] : List (κ × υ)) = [] := rfl

@[simp] theorem valuesOf_cons (k : κ) (v : υ) :
    valuesOf key ((k, v) :: bindings) =
      if k = key then v :: valuesOf key bindings else valuesOf key bindings := by
  unfold valuesOf
  rw [List.filter_cons]
  by_cases h : k = key
  · simp [h]
  · simp [h]

theorem mem_valuesOf {v : υ} : v ∈ valuesOf key bindings ↔ (key, v) ∈ bindings := by
  simp [valuesOf]

end Bindings

/-! Conversions that may throw, one after another. -/

theorem map_ok {x : Except ε α} {f : α → β} {b : β} :
    x.map f = .ok b ↔ ∃ a, x = .ok a ∧ f a = b := by
  cases x with
  | error e =>
    refine iff_of_false ?_ ?_
    · intro h
      cases h
    · intro h
      obtain ⟨a, ha, -⟩ := h
      cases ha
  | ok a =>
    constructor
    · intro h
      cases h
      exact ⟨a, rfl, rfl⟩
    · intro h
      obtain ⟨a', ha, rfl⟩ := h
      cases ha
      rfl

theorem mapError_ok {ε' : Type*} {x : Except ε α} {f : ε → ε'} {a : α} :
    x.mapError f = .ok a ↔ x = .ok a := by
  cases x with
  | error e =>
    refine iff_of_false ?_ ?_
    · intro h
      cases h
    · intro h
      cases h
  | ok b =>
    constructor
    · intro h
      cases h
      rfl
    · intro h
      cases h
      rfl

theorem bind_ok {x : Except ε α} {f : α → Except ε β} {b : β} :
    x.bind f = .ok b ↔ ∃ a, x = .ok a ∧ f a = .ok b := by
  cases x with
  | error e =>
    refine iff_of_false ?_ ?_
    · intro h
      cases h
    · intro h
      obtain ⟨a, ha, -⟩ := h
      cases ha
  | ok a =>
    constructor
    · intro h
      exact ⟨a, rfl, h⟩
    · intro h
      obtain ⟨a', ha, h⟩ := h
      cases ha
      exact h

theorem mapM_cons_ok {f : α → Except ε β} {a : α} {as : List α} {bs : List β} :
    (a :: as).mapM f = .ok bs ↔ ∃ b bs', f a = .ok b ∧ as.mapM f = .ok bs' ∧ bs = b :: bs' := by
  rw [List.mapM_cons]
  constructor
  · intro h
    obtain ⟨b, hb, h⟩ := bind_ok.mp h
    obtain ⟨bs', hbs, h⟩ := bind_ok.mp h
    cases h
    exact ⟨b, bs', hb, hbs, rfl⟩
  · intro h
    obtain ⟨b, bs', hb, hbs, rfl⟩ := h
    exact bind_ok.mpr ⟨b, hb, bind_ok.mpr ⟨bs', hbs, rfl⟩⟩

theorem foldlM_cons_ok {f : σ → α → Except ε σ} {s t : σ} {a : α} {as : List α} :
    (a :: as).foldlM f s = .ok t ↔ ∃ u, f s a = .ok u ∧ as.foldlM f u = .ok t := by
  rw [List.foldlM_cons]
  exact bind_ok

/-- Taking in values by keeping the last one. -/
theorem foldl_replace (as : List α) (a : α) : as.foldl (fun _ b => b) a = as.getLastD a := by
  induction as generalizing a with
  | nil => rfl
  | cons b as ih =>
    rw [List.foldl_cons, ih]
    cases as with
    | nil => rfl
    | cons c as => rfl

/-- A reader of bindings, which come into a record one by one. -/
structure Reader (σ κ υ ε : Type*) where
  assign : σ → κ → υ → Except ε σ

namespace Reader

/-- One binding after another; the first value that is no value of its setting throws. -/
def read (r : Reader σ κ υ ε) (s : σ) (bindings : List (κ × υ)) : Except ε σ :=
  bindings.foldlM (fun s b => r.assign s b.1 b.2) s

variable {r : Reader σ κ υ ε}

/-- A loop over lines, some of which bind a key, reads the bindings in these lines. -/
theorem read_filterMap {f : σ → α → Except ε σ} {binding : α → Option (κ × υ)}
    (h : ∀ s a, f s a = (binding a).elim (.ok s) fun b => r.assign s b.1 b.2) (s : σ)
    (as : List α) : as.foldlM f s = r.read s (as.filterMap binding) := by
  induction as generalizing s with
  | nil => rfl
  | cons a as ih =>
    rw [List.foldlM_cons, h]
    cases hb : binding a with
    | none =>
      rw [List.filterMap_cons_none hb, ← ih]
      rfl
    | some b =>
      rw [List.filterMap_cons_some hb, read, List.foldlM_cons]
      congr 1
      funext t
      exact ih t

variable [DecidableEq κ]

/-- `get` is the setting of `key`: its values are converted by `parse` and taken in by `put`; no
other key changes it. -/
structure HasSetting (r : Reader σ κ υ ε) (key : κ) (parse : υ → Except ε α) (get : σ → β)
    (put : β → α → β) : Prop where
  here : ∀ {s t v}, r.assign s key v = .ok t → ∃ a, parse v = .ok a ∧ get t = put (get s) a
  elsewhere : ∀ {s t k v}, k ≠ key → r.assign s k v = .ok t → get t = get s

/-- A setting holds its default and all of its values, whatever lies between them. -/
theorem HasSetting.read {key : κ} {parse : υ → Except ε α} {get : σ → β} {put : β → α → β}
    (h : r.HasSetting key parse get put) {s t : σ} {bindings : List (κ × υ)}
    (ht : r.read s bindings = .ok t) :
    ∃ as, (Bindings.valuesOf key bindings).mapM parse = .ok as ∧ get t = as.foldl put (get s) := by
  induction bindings generalizing s with
  | nil =>
    cases ht
    exact ⟨[], rfl, rfl⟩
  | cons b bindings ih =>
    obtain ⟨u, hu, ht⟩ := foldlM_cons_ok.mp ht
    obtain ⟨as, has, hget⟩ := ih ht
    rw [Bindings.valuesOf_cons]
    split_ifs with hkey
    · rw [hkey] at hu
      obtain ⟨a, ha, hput⟩ := h.here hu
      refine ⟨a :: as, mapM_cons_ok.mpr ⟨a, as, ha, has, rfl⟩, ?_⟩
      rw [hget, hput, List.foldl_cons]
    · exact ⟨as, has, by rw [hget, h.elsewhere hkey hu]⟩

/-- A setting whose last value counts. -/
theorem HasSetting.last {key : κ} {parse : υ → Except ε α} {get : σ → α}
    (h : r.HasSetting key parse get fun _ a => a) {s t : σ} {bindings : List (κ × υ)}
    (ht : r.read s bindings = .ok t) :
    ∃ as, (Bindings.valuesOf key bindings).mapM parse = .ok as ∧ get t = as.getLastD (get s) := by
  obtain ⟨as, has, hget⟩ := h.read ht
  exact ⟨as, has, by rw [hget, foldl_replace]⟩

/-- `accepts k v` says that a binding does not throw. -/
def Accepts (r : Reader σ κ υ ε) (accepts : κ → υ → Prop) : Prop :=
  ∀ s k v, (∃ t, r.assign s k v = .ok t) ↔ accepts k v

omit [DecidableEq κ] in
/-- A file is read exactly when each of its bindings is accepted, also those that later ones
override. -/
theorem Accepts.read_iff {accepts : κ → υ → Prop} (h : r.Accepts accepts) (s : σ)
    (bindings : List (κ × υ)) :
    (∃ t, r.read s bindings = .ok t) ↔ ∀ b ∈ bindings, accepts b.1 b.2 := by
  induction bindings generalizing s with
  | nil =>
    refine iff_of_true ⟨s, rfl⟩ ?_
    intro b hb
    cases hb
  | cons b bindings ih =>
    rw [List.forall_mem_cons, ← h s]
    constructor
    · intro hread
      obtain ⟨t, ht⟩ := hread
      obtain ⟨u, hu, ht⟩ := foldlM_cons_ok.mp ht
      exact ⟨⟨u, hu⟩, (ih u).mp ⟨t, ht⟩⟩
    · intro hall
      obtain ⟨⟨u, hu⟩, hall⟩ := hall
      obtain ⟨t, ht⟩ := (ih u).mpr hall
      exact ⟨t, foldlM_cons_ok.mpr ⟨u, hu, ht⟩⟩

end Reader

theorem mapM_pure (as : List α) : as.mapM (fun a => (.ok a : Except ε α)) = .ok as := by
  induction as with
  | nil => rfl
  | cons a as ih => exact mapM_cons_ok.mpr ⟨a, as, rfl, ih, rfl⟩

/-- Conversions succeed together exactly when each does. -/
theorem mapM_ok_iff {f : α → Except ε β} {as : List α} :
    (∃ bs, as.mapM f = .ok bs) ↔ ∀ a ∈ as, ∃ b, f a = .ok b := by
  induction as with
  | nil =>
    refine iff_of_true ⟨[], rfl⟩ ?_
    intro a ha
    cases ha
  | cons a as ih =>
    rw [List.forall_mem_cons, ← ih]
    constructor
    · intro h
      obtain ⟨bs, h⟩ := h
      obtain ⟨b, bs', hb, hbs, -⟩ := mapM_cons_ok.mp h
      exact ⟨⟨b, hb⟩, bs', hbs⟩
    · intro h
      obtain ⟨⟨b, hb⟩, bs', hbs⟩ := h
      exact ⟨b :: bs', mapM_cons_ok.mpr ⟨b, bs', hb, hbs, rfl⟩⟩

end Jellybean
