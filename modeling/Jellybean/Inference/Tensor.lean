import Mathlib.Tactic

namespace Jellybean.Inference

variable {α : Type*}

/-! The part of LibTorch the backend calls, as documented. -/

/-- A contiguous tensor with at least one dimension, by rows of dimension 0. -/
structure Batch (α : Type*) where
  dims : List Nat
  rows : List (List α)
  row_length : ∀ r ∈ rows, r.length = dims.prod

inductive Tensor (α : Type*) where
  | scalar (x : α)
  | batch (b : Batch α)

def Tensor.shape : Tensor α → List Nat
  | .scalar _ => []
  | .batch b => b.rows.length :: b.dims

/-- The floats behind `data_ptr`, in row-major order. -/
def Tensor.data : Tensor α → List α
  | .scalar x => [x]
  | .batch b => b.rows.flatten

def Tensor.numel (t : Tensor α) : Nat := t.shape.prod

theorem Tensor.length_data (t : Tensor α) : t.data.length = t.numel := by
  cases t with
  | scalar x => rfl
  | batch b =>
    have h : b.rows.map List.length = List.replicate b.rows.length b.dims.prod := by
      rw [List.eq_replicate_iff]
      refine ⟨by simp, fun n hn => ?_⟩
      obtain ⟨r, hr, rfl⟩ := List.mem_map.mp hn
      exact b.row_length r hr
    simp [Tensor.data, Tensor.numel, Tensor.shape, List.length_flatten, h]

/-- What makes LibTorch throw a `c10::Error` here. -/
inductive TorchError where
  | negativeDimension
  | catEmptyList
  | catZeroDim
  | catSizes
  | forward
  deriving DecidableEq

/-- Row `i` of a row-major array of `w` floats a row. -/
def blobRow (ptr : Nat → α) (w i : Nat) : List α := (List.range w).map fun j => ptr (i * w + j)

/-- `from_blob(...).clone()` reads the product of `shape` many floats from `ptr`. -/
def fromBlob (ptr : Nat → α) (shape : List Int) : Except TorchError (Tensor α) :=
  if ∃ d ∈ shape, d < 0 then .error .negativeDimension
  else
    match shape.map Int.toNat with
    | [] => .ok (.scalar (ptr 0))
    | r :: dims => .ok (.batch
      { dims := dims
        rows := (List.range r).map (blobRow ptr dims.prod)
        row_length := by
          intro row h
          obtain ⟨i, -, rfl⟩ := List.mem_map.mp h
          simp [blobRow] })

/-- Two tensors end to end along dimension 0. -/
def cat2 (a b : Batch α) : Except TorchError (Batch α) :=
  if h : a.dims = b.dims then
    .ok
      { dims := b.dims
        rows := a.rows ++ b.rows
        row_length := by
          intro r hr
          rcases List.mem_append.mp hr with hr | hr
          · exact h ▸ a.row_length r hr
          · exact b.row_length r hr }
  else .error .catSizes

/-- `torch::cat(tensors, 0)`. -/
def cat : List (Tensor α) → Except TorchError (Batch α)
  | [] => .error .catEmptyList
  | .scalar _ :: _ => .error .catZeroDim
  | [.batch b] => .ok b
  | .batch b :: t :: ts => do cat2 b (← cat (t :: ts))

/-- Row counts of the pieces of at most `c` rows that `rows` rows are cut into. -/
def cutRows (c : Nat) : (fuel rows : Nat) → List Nat
  | 0, _ => []
  | fuel + 1, rows => if rows = 0 then [] else min c rows :: cutRows c fuel (rows - c)

/-- Row counts of `chunk(n, 0)`: pieces of `ceil(rows / n)` rows, the last one smaller, and fewer
than `n` if that exhausts the rows; no rows at all are cut into `n` empty pieces. -/
def chunkSizes (n rows : Nat) : List Nat :=
  if rows = 0 then List.replicate n 0 else cutRows ((rows + n - 1) / n) rows rows

def Batch.takeRows (b : Batch α) (k : Nat) : Batch α where
  dims := b.dims
  rows := b.rows.take k
  row_length r hr := b.row_length r (List.mem_of_mem_take hr)

def Batch.dropRows (b : Batch α) (k : Nat) : Batch α where
  dims := b.dims
  rows := b.rows.drop k
  row_length r hr := b.row_length r (List.mem_of_mem_drop hr)

/-- Consecutive pieces of the given row counts. -/
def Batch.split (b : Batch α) : List Nat → List (Batch α)
  | [] => []
  | k :: ks => b.takeRows k :: (b.dropRows k).split ks

def Batch.chunk (b : Batch α) (n : Nat) : List (Batch α) := b.split (chunkSizes n b.rows.length)

/-- A model whose `forward` treats the rows of dimension 0 independently: `outDims` says which
row dimensions it accepts and what it makes of them, `row` what it computes. -/
structure RowModule (α : Type*) where
  outDims : List Nat → Option (List Nat)
  row : List Nat → List α → List α
  row_length : ∀ {dims out xs}, outDims dims = some out → xs.length = dims.prod →
    (row dims xs).length = out.prod
  scalar : α → Option (Tensor α)

def RowModule.forwardBatch (m : RowModule α) (b : Batch α) : Except TorchError (Batch α) :=
  match h : m.outDims b.dims with
  | none => .error .forward
  | some out => .ok
    { dims := out
      rows := b.rows.map (m.row b.dims)
      row_length := by
        intro r hr
        obtain ⟨x, hx, rfl⟩ := List.mem_map.mp hr
        exact m.row_length h (b.row_length x hx) }

def RowModule.forward (m : RowModule α) : Tensor α → Except TorchError (Tensor α)
  | .scalar x =>
    match m.scalar x with
    | none => .error .forward
    | some y => .ok y
  | .batch b => (m.forwardBatch b).map .batch

/-- A pointwise function such as `relu(x * 2 + 1)`. -/
def RowModule.pointwise (f : α → α) : RowModule α where
  outDims := some
  row _ := List.map f
  row_length := by
    intro dims out xs h hl
    cases h
    simpa using hl
  scalar x := some (.scalar (f x))

/-! Which row counts survive cutting with `chunk`. -/

@[simp] theorem cutRows_zero (c fuel : Nat) : cutRows c fuel 0 = [] := by
  cases fuel <;> rfl

theorem cutRows_pos (c : Nat) {fuel rows : Nat} (h : 0 < rows) (hf : rows ≤ fuel) :
    cutRows c fuel rows = min c rows :: cutRows c (fuel - 1) (rows - c) := by
  obtain ⟨f, rfl⟩ : ∃ f, fuel = f + 1 := ⟨fuel - 1, by omega⟩
  rw [cutRows, if_neg (by omega), Nat.add_sub_cancel]

theorem cutRows_replicate {c r : Nat} (hr : 1 ≤ r) (hrc : r ≤ c) (k : Nat) {fuel : Nat}
    (hf : k * c + r ≤ fuel) : cutRows c fuel (k * c + r) = List.replicate k c ++ [r] := by
  induction k generalizing fuel with
  | zero =>
    rw [Nat.zero_mul, Nat.zero_add] at hf ⊢
    rw [cutRows_pos c hr hf, Nat.sub_eq_zero_of_le hrc, cutRows_zero, Nat.min_eq_right hrc]
    rfl
  | succ k ih =>
    have hsucc : (k + 1) * c = k * c + c := Nat.succ_mul k c
    have hsub : (k + 1) * c + r - c = k * c + r := by omega
    rw [cutRows_pos c (by omega) hf, hsub, ih (by omega), Nat.min_eq_left (by omega),
      List.replicate_succ]
    rfl

/-- All pieces have `c` rows, except that the last may have fewer. -/
theorem chunkSizes_pos {n rows : Nat} (hn : 0 < n) (hr : 0 < rows) :
    ∃ k c r, chunkSizes n rows = List.replicate k c ++ [r] ∧ c = (rows + n - 1) / n ∧
      1 ≤ r ∧ r ≤ c ∧ rows = k * c + r ∧ k < n := by
  obtain ⟨c, hc⟩ : ∃ c, c = (rows + n - 1) / n := ⟨_, rfl⟩
  have hpos : 1 ≤ c := by
    rw [hc, Nat.one_le_div_iff hn]
    omega
  have hmod := Nat.mod_lt (rows - 1) hpos
  have hsplit : rows = (rows - 1) / c * c + ((rows - 1) % c + 1) := by
    have := Nat.div_add_mod' (rows - 1) c
    omega
  refine ⟨(rows - 1) / c, c, (rows - 1) % c + 1, ?_, hc, by omega, by omega, hsplit, ?_⟩
  · rw [chunkSizes, if_neg (by omega), ← hc]
    conv_lhs => rw [hsplit]
    exact cutRows_replicate (by omega) (by omega) _ (by omega)
  · have hceil : rows ≤ n * c := by
      have := Nat.lt_mul_div_succ (rows + n - 1) hn
      rw [← hc, Nat.mul_succ] at this
      omega
    by_contra hge
    have := Nat.mul_le_mul_right c (Nat.le_of_not_lt hge)
    omega

theorem sum_chunkSizes {n : Nat} (hn : 0 < n) (rows : Nat) : (chunkSizes n rows).sum = rows := by
  rcases Nat.eq_zero_or_pos rows with rfl | hr
  · simp [chunkSizes]
  · obtain ⟨k, c, r, h, -, -, -, hsum, -⟩ := chunkSizes_pos hn hr
    rw [h, hsum]
    simp

theorem length_chunkSizes_le {n : Nat} (hn : 0 < n) (rows : Nat) :
    (chunkSizes n rows).length ≤ n := by
  rcases Nat.eq_zero_or_pos rows with rfl | hr
  · simp [chunkSizes]
  · obtain ⟨k, c, r, h, -, -, -, -, hk⟩ := chunkSizes_pos hn hr
    rw [h]
    simpa using hk

/-- `chunk` gives back the row counts that were concatenated if and only if they are all equal,
except that the last may be smaller by less than the number of pieces and not empty. -/
theorem chunkSizes_eq_iff {rows : List Nat} (hne : rows ≠ []) :
    chunkSizes rows.length rows.sum = rows ↔
      ∃ k c r, rows = List.replicate k c ++ [r] ∧ r ≤ c ∧ c ≤ r + k ∧ (1 ≤ r ∨ c = 0) := by
  have hn := List.length_pos_iff.mpr hne
  constructor
  · intro h
    rcases Nat.eq_zero_or_pos rows.sum with hz | hpos
    · obtain ⟨k, hk⟩ : ∃ k, rows.length = k + 1 := ⟨rows.length - 1, by omega⟩
      refine ⟨k, 0, 0, ?_, le_rfl, by omega, .inr rfl⟩
      rw [← h, chunkSizes, if_pos hz, hk, List.replicate_succ']
    · obtain ⟨k, c, r, hcut, hc, h1, hrc, hsum, -⟩ := chunkSizes_pos hn hpos
      rw [h] at hcut
      have hlen : rows.length = k + 1 := by rw [hcut]; simp
      have hdiv := Nat.div_mul_le_self (rows.sum + rows.length - 1) rows.length
      rw [← hc, hlen, hsum, Nat.mul_succ, Nat.mul_comm c k] at hdiv
      exact ⟨k, c, r, hcut, hrc, by omega, .inl h1⟩
  · rintro ⟨k, c, r, hrows, hrc, hcr, hor⟩
    have hsum : rows.sum = k * c + r := by rw [hrows]; simp
    have hlen : rows.length = k + 1 := by rw [hrows]; simp
    unfold chunkSizes
    rcases hor with hr | rfl
    · rw [if_neg (by omega), hsum, hlen]
      have hceil : (k * c + r + (k + 1) - 1) / (k + 1) = c := by
        rw [Nat.div_eq_iff (by omega), Nat.mul_succ, Nat.mul_comm c k]
        omega
      rw [hceil, cutRows_replicate hr hrc k le_rfl, hrows]
    · obtain rfl : r = 0 := by omega
      rw [if_pos (by omega), hlen, hrows, List.replicate_succ']

/-! Concatenating and splitting rows. -/

theorem Batch.ext_rows {a b : Batch α} (hd : a.dims = b.dims) (hr : a.rows = b.rows) : a = b := by
  cases a
  cases b
  cases hd
  cases hr
  rfl

/-- Batches of equal row dimensions are concatenated row by row. -/
theorem cat_batches {dims : List Nat} (b : Batch α) (bs : List (Batch α))
    (h : ∀ x ∈ b :: bs, x.dims = dims) :
    ∃ c, cat ((b :: bs).map Tensor.batch) = .ok c ∧ c.dims = dims ∧
      c.rows = (b :: bs).flatMap Batch.rows := by
  induction bs generalizing b with
  | nil => exact ⟨b, rfl, h b (by simp), by simp⟩
  | cons b' bs ih =>
    obtain ⟨c, hc, hd, hr⟩ := ih b' fun x hx => h x (List.mem_cons_of_mem b hx)
    have hb : b.dims = c.dims := (h b (by simp)).trans hd.symm
    refine ⟨⟨c.dims, b.rows ++ c.rows, ?_⟩, ?_, hd, ?_⟩
    · intro r hm
      rcases List.mem_append.mp hm with hm | hm
      · exact hb ▸ b.row_length r hm
      · exact c.row_length r hm
    · rw [List.map_cons, List.map_cons, cat, ← List.map_cons, hc]
      change cat2 b c = _
      rw [cat2, dif_pos hb]
    · rw [List.flatMap_cons, ← hr]

/-- Only batches of equal row dimensions can be concatenated. -/
theorem cat_eq_ok {ts : List (Tensor α)} {c : Batch α} (h : cat ts = .ok c) :
    ∃ bs : List (Batch α), ts = bs.map Tensor.batch ∧ bs ≠ [] ∧ ∀ b ∈ bs, b.dims = c.dims := by
  induction ts generalizing c with
  | nil => cases h
  | cons t ts ih =>
    cases t with
    | scalar x => cases ts <;> cases h
    | batch b =>
      cases ts with
      | nil =>
        cases h
        exact ⟨[c], rfl, by simp, by simp⟩
      | cons t' ts =>
        rw [cat] at h
        cases hrest : cat (t' :: ts) with
        | error e =>
          rw [hrest] at h
          cases h
        | ok r =>
          rw [hrest] at h
          change cat2 b r = .ok c at h
          unfold cat2 at h
          split_ifs at h with hd
          cases h
          obtain ⟨bs, hbs, -, hall⟩ := ih hrest
          refine ⟨b :: bs, by rw [hbs, List.map_cons], by simp, fun x hx => ?_⟩
          rcases List.mem_cons.mp hx with rfl | hx
          · exact hd
          · exact hall x hx

@[simp] theorem Batch.dims_dropRows (b : Batch α) (k : Nat) : (b.dropRows k).dims = b.dims := rfl

theorem Batch.length_split (b : Batch α) (ks : List Nat) : (b.split ks).length = ks.length := by
  induction ks generalizing b with
  | nil => rfl
  | cons k ks ih => simp [Batch.split, ih]

theorem Batch.rows_length_split (b : Batch α) {ks : List Nat} (h : ks.sum ≤ b.rows.length) :
    (b.split ks).map (fun c => c.rows.length) = ks := by
  induction ks generalizing b with
  | nil => rfl
  | cons k ks ih =>
    rw [List.sum_cons] at h
    have hd : ks.sum ≤ (b.dropRows k).rows.length := by
      simp only [Batch.dropRows, List.length_drop]
      omega
    rw [Batch.split, List.map_cons, ih _ hd]
    simp only [Batch.takeRows, List.length_take]
    rw [Nat.min_eq_left (by omega)]

/-- Splitting at the seams gives the parts back. -/
theorem Batch.split_flatMap {β : Type*} {dims : List Nat} (f : β → Batch α) (xs : List β)
    {b : Batch α} (hb : b.dims = dims) (hf : ∀ x ∈ xs, (f x).dims = dims)
    (hr : b.rows = xs.flatMap fun x => (f x).rows) :
    b.split (xs.map fun x => (f x).rows.length) = xs.map f := by
  induction xs generalizing b with
  | nil => rfl
  | cons x xs ih =>
    rw [List.flatMap_cons] at hr
    rw [List.map_cons, Batch.split, List.map_cons]
    congr 1
    · refine Batch.ext_rows (hb.trans (hf x (by simp)).symm) ?_
      simp [Batch.takeRows, hr]
    · refine ih hb (fun y hy => hf y (by simp [hy])) ?_
      simp [Batch.dropRows, hr]

end Jellybean.Inference
