import Jellybean.Server.WireProtocol

namespace Jellybean.Server

namespace SessionRead

/-- The `co_await sock.read` a session is suspended in. -/
inductive Pc where
  | readLen
  | readModelId (len : Nat)
  | readInputElems (modelId : List UInt8)
  | readPayload (modelId : List UInt8) (inputElems : Nat) (received : List UInt8)
  | closed
  deriving DecidableEq

/-- `arrived` is readable now; the pieces in `coming` become readable one after another, each
when the bytes before it have been read. `decoded` holds the requests given to the runtime. -/
structure Session where
  arrived : List UInt8
  coming : List (List UInt8)
  pc : Pc
  decoded : List Request
  deriving DecidableEq

/-- The length argument of the read. -/
def Pc.want : Pc → Nat
  | .readLen => 1
  | .readModelId len => len
  | .readInputElems _ => 4
  | .readPayload _ inputElems received => 4 * inputElems - received.length
  | .closed => 0

/-- A zeroed buffer of `len` bytes after the first ones were written. -/
def fill (len : Nat) (got : List UInt8) : List UInt8 :=
  got ++ List.replicate (len - got.length) 0

/-- `while (bytes_read < bytes_to_read)`, then the request is complete. -/
def payloadLoop (modelId : List UInt8) (inputElems : Nat) (received : List UInt8) :
    Pc × List Request :=
  if received.length < 4 * inputElems then (.readPayload modelId inputElems received, [])
  else (.readLen, [⟨modelId, inputElems, received⟩])

/-- What follows a read that returned `got`, up to the next read. Only the payload is read in
a loop; a `MemoryException` ends the session. -/
def Pc.accept (got : List UInt8) : Pc → Pc × List Request
  | .readLen => (.readModelId (leNat (fill 1 got)), [])
  | .readModelId len => (.readInputElems (fill len got), [])
  | .readInputElems modelId =>
    let inputElems := leNat (fill 4 got)
    if inputElems > maxElems then (.closed, []) else payloadLoop modelId inputElems []
  | .readPayload modelId inputElems received => payloadLoop modelId inputElems (received ++ got)
  | .closed => (.closed, [])

/-- The reactor resumes the coroutine when its socket is readable. -/
def Session.ready (s : Session) : Option Session :=
  match s.arrived, s.coming with
  | [], [] => none
  | [], p :: ps => some { s with arrived := p, coming := ps }
  | _ :: _, _ => some s

/-- `await_resume` returns what can be read before `EAGAIN`, at most the length asked for;
a result of zero makes the session break. -/
def Session.resume (s : Session) : Session :=
  let got := s.arrived.take s.pc.want
  if got = [] then { s with pc := .closed }
  else
    { s with
      arrived := s.arrived.drop s.pc.want
      pc := (s.pc.accept got).1
      decoded := s.decoded ++ (s.pc.accept got).2 }

def step (s : Session) : Option Session :=
  if s.pc = .closed then none else s.ready.map Session.resume

def start (pieces : List (List UInt8)) : Session := ⟨[], pieces, .readLen, []⟩

def Session.bytes (s : Session) : List UInt8 := s.arrived ++ s.coming.flatten

def next (s : Session) : Session := (step s).getD s

/-- Where the session stands when all pieces have arrived. A read that does not close the
connection takes at least one byte, so no further step is possible then. -/
def session (pieces : List (List UInt8)) : Session :=
  next^[pieces.flatten.length + 1] (start pieces)

/-- The stream was decoded into `rs`: nothing is left over or taken for the start of a further
request, and the connection is open. -/
def waitingAfter (rs : List Request) : Session := ⟨[], [], .readLen, rs⟩

/-- End offsets of the pieces of a stream that continues at offset `o`. -/
def cuts : Nat → List (List UInt8) → List Nat
  | _, [] => []
  | o, p :: ps => (o + p.length) :: cuts (o + p.length) ps

/-- No cut lies strictly inside the `len` bytes at offset `o`. -/
def Uncut (cs : List Nat) (o len : Nat) : Prop := ∀ c ∈ cs, c ≤ o ∨ o + len ≤ c

/-- No `model_id` is empty, and no cut lies strictly inside a `model_id` or an `input_elems`. -/
def FieldsUncut (cs : List Nat) : Nat → List Frame → Prop
  | _, [] => True
  | o, f :: fs =>
    f.modelId ≠ [] ∧ Uncut cs (o + 1) f.modelId.length ∧
      Uncut cs (o + 1 + f.modelId.length) 4 ∧ FieldsUncut cs (o + f.toRequest.size) fs

/-! Every step reads something or closes the connection. -/

theorem ready_spec {s t : Session} (h : s.ready = some t) :
    t.arrived ++ t.coming.flatten = s.bytes ∧ t.pc = s.pc ∧ t.decoded = s.decoded ∧
      ((∀ p ∈ s.coming, p ≠ []) → t.arrived ≠ [] ∧ ∀ p ∈ t.coming, p ≠ []) := by
  unfold Session.ready at h
  split at h
  · cases h
  · rename_i ha hc
    cases h
    refine ⟨by simp [Session.bytes, ha, hc], rfl, rfl, fun hp => ?_⟩
    rw [hc] at hp
    exact ⟨hp _ (by simp), fun p hm => hp p (by simp [hm])⟩
  · rename_i ha
    cases h
    exact ⟨rfl, rfl, rfl, fun hp => ⟨by simp [ha], hp⟩⟩

theorem ready_isSome {s : Session} (h : s.bytes ≠ []) : ∃ t, s.ready = some t := by
  unfold Session.ready
  split
  · rename_i ha hc
    simp [Session.bytes, ha, hc] at h
  · exact ⟨_, rfl⟩
  · exact ⟨_, rfl⟩

theorem step_length {s t : Session} (h : step s = some t) :
    t.bytes.length < s.bytes.length ∨ t.pc = .closed ∧ t.bytes.length = s.bytes.length := by
  unfold step at h
  split_ifs at h with hc
  obtain ⟨u, hu, rfl⟩ := Option.map_eq_some_iff.mp h
  obtain ⟨hb, -⟩ := ready_spec hu
  have hlen := congrArg List.length hb
  rw [List.length_append] at hlen
  unfold Session.resume
  dsimp only
  split_ifs with hg
  · exact .inr ⟨rfl, by simp only [Session.bytes, List.length_append] at hlen ⊢; omega⟩
  · have hpos := List.length_pos_iff.mpr hg
    rw [List.length_take] at hpos
    refine .inl ?_
    simp only [Session.bytes, List.length_append, List.length_drop] at hlen ⊢
    omega

theorem next_eq_of_step {s t : Session} (h : step s = some t) : next s = t := by
  rw [next, h, Option.getD_some]

theorem next_eq_self {s : Session} (h : step s = none) : next s = s := by
  rw [next, h, Option.getD_none]

theorem iterate_next_eq_self {s : Session} (h : step s = none) (k : Nat) : next^[k] s = s :=
  Function.iterate_fixed (next_eq_self h) k

theorem step_closed {s : Session} (h : s.pc = .closed) : step s = none := by
  rw [step, if_pos h]

/-- The bound on the number of steps is large enough: the session is closed or waits for data. -/
theorem step_iterate_next (s : Session) {k : Nat} (hk : s.bytes.length < k) :
    step (next^[k] s) = none := by
  induction k generalizing s with
  | zero => omega
  | succ k ih =>
    rw [Function.iterate_succ_apply]
    cases hs : step s with
    | none => rw [next_eq_self hs, iterate_next_eq_self hs, hs]
    | some t =>
      rw [next_eq_of_step hs]
      rcases step_length hs with hlt | ⟨hc, -⟩
      · exact ih t (by omega)
      · have hn := step_closed hc
        rw [iterate_next_eq_self hn, hn]

theorem step_session (pieces : List (List UInt8)) : step (session pieces) = none :=
  step_iterate_next _ (by simp [start, Session.bytes])

/-- The session comes to stand in `t`. -/
def Reaches (s t : Session) : Prop := ∃ k, next^[k] s = t

theorem reaches_iff_of_step {s t u : Session} (h : step s = some t) (hu : step u = none) :
    Reaches s u ↔ Reaches t u := by
  constructor
  · rintro ⟨k, hk⟩
    cases k with
    | zero =>
      obtain rfl : s = u := hk
      rw [hu] at h
      cases h
    | succ k =>
      rw [Function.iterate_succ_apply, next_eq_of_step h] at hk
      exact ⟨k, hk⟩
  · rintro ⟨k, hk⟩
    exact ⟨k + 1, by rw [Function.iterate_succ_apply, next_eq_of_step h, hk]⟩

theorem step_waitingAfter (rs : List Request) : step (waitingAfter rs) = none := rfl

theorem session_eq_iff_reaches {pieces : List (List UInt8)} {u : Session} (hu : step u = none) :
    session pieces = u ↔ Reaches (start pieces) u := by
  constructor
  · exact fun h => ⟨_, h⟩
  · rintro ⟨k, hk⟩
    have hstop := step_session pieces
    rcases Nat.le_total k (pieces.flatten.length + 1) with hle | hle
    · obtain ⟨d, hd⟩ := Nat.exists_eq_add_of_le hle
      rw [session, hd, add_comm, Function.iterate_add_apply, hk, iterate_next_eq_self hu]
    · obtain ⟨d, hd⟩ := Nat.exists_eq_add_of_le hle
      rw [hd, add_comm, Function.iterate_add_apply] at hk
      rw [← hk]
      exact (iterate_next_eq_self hstop d).symm

/-! Bytes that a short read skips are missing at the end. -/

/-- Bytes of the current frame that the session takes for read. -/
def Pc.progress : Pc → Nat
  | .readLen | .closed => 0
  | .readModelId _ => 1
  | .readInputElems modelId => 1 + modelId.length
  | .readPayload modelId _ received => 1 + modelId.length + 4 + received.length

def Pc.Ok : Pc → Prop
  | .readPayload _ inputElems received => received.length < 4 * inputElems
  | _ => True

def totalSize (rs : List Request) : Nat := (rs.map Request.size).sum

/-- Bytes taken for read and bytes still to read; a short field makes it grow. -/
def Session.account (s : Session) : Nat :=
  totalSize s.decoded + s.pc.progress + s.bytes.length

theorem length_fill {len : Nat} {got : List UInt8} (h : got.length ≤ len) :
    (fill len got).length = len := by
  simp only [fill, List.length_append, List.length_replicate]
  omega

theorem payloadLoop_ok (modelId : List UInt8) (inputElems : Nat) (received : List UInt8) :
    (payloadLoop modelId inputElems received).1.Ok := by
  unfold payloadLoop
  split_ifs with h
  · exact h
  · trivial

theorem payloadLoop_progress (modelId : List UInt8) (inputElems : Nat) {received : List UInt8}
    (h : received.length ≤ 4 * inputElems) :
    totalSize (payloadLoop modelId inputElems received).2 +
      (payloadLoop modelId inputElems received).1.progress
        = 1 + modelId.length + 4 + received.length := by
  unfold payloadLoop
  split_ifs with hlt
  · simp [totalSize, Pc.progress]
  · simp only [totalSize, Pc.progress, Request.size, List.map_cons, List.map_nil, List.sum_cons,
      List.sum_nil]
    omega

theorem accept_ok (pc : Pc) (got : List UInt8) : (pc.accept got).1.Ok := by
  cases pc with
  | readLen | readModelId len | closed => trivial
  | readInputElems modelId =>
    simp only [Pc.accept]
    split_ifs
    · trivial
    · exact payloadLoop_ok _ _ _
  | readPayload modelId inputElems received => exact payloadLoop_ok _ _ _

/-- A read that returned `got` makes progress by its field, or by `got` in the payload. -/
theorem accept_progress {pc : Pc} {got : List UInt8} (hok : pc.Ok) (hg : got.length ≤ pc.want)
    (hc : (pc.accept got).1 ≠ .closed) :
    pc.progress + got.length ≤ totalSize (pc.accept got).2 + (pc.accept got).1.progress ∧
      ((∀ modelId inputElems received, pc ≠ .readPayload modelId inputElems received) →
        pc.progress + pc.want = totalSize (pc.accept got).2 + (pc.accept got).1.progress) := by
  cases pc with
  | readLen => simpa [Pc.accept, Pc.progress, totalSize, Pc.want] using hg
  | readModelId len =>
    have hl := length_fill hg
    simp only [Pc.accept, Pc.progress, totalSize, Pc.want] at hg hl ⊢
    simp only [List.map_nil, List.sum_nil]
    omega
  | readInputElems modelId =>
    have hp : _ = 1 + modelId.length + 4 + ([] : List UInt8).length :=
      payloadLoop_progress modelId (leNat (fill 4 got)) (Nat.zero_le _)
    change 1 + modelId.length + got.length ≤ _ ∧ (_ → 1 + modelId.length + 4 = _)
    simp only [Pc.accept, Pc.want, List.length_nil] at hg hc hp ⊢
    split_ifs at hc ⊢ with hmax
    · exact absurd rfl hc
    · omega
  | readPayload modelId inputElems received =>
    simp only [Pc.want, Pc.Ok] at hg hok
    have hp : _ = 1 + modelId.length + 4 + (received ++ got).length :=
      payloadLoop_progress modelId inputElems (by rw [List.length_append]; omega)
    rw [List.length_append] at hp
    refine ⟨?_, fun h => absurd rfl (h _ _ _)⟩
    change 1 + modelId.length + 4 + received.length + got.length ≤ _
    simp only [Pc.accept]
    omega
  | closed => exact absurd rfl hc

theorem step_eq_resume {s u : Session} (hc : s.pc ≠ .closed) (hu : s.ready = some u) :
    step s = some u.resume := by
  rw [step, if_neg hc, hu, Option.map_some]

theorem resume_of_ne {u : Session} (h : u.arrived.take u.pc.want ≠ []) :
    u.resume = { u with
      arrived := u.arrived.drop u.pc.want
      pc := (u.pc.accept (u.arrived.take u.pc.want)).1
      decoded := u.decoded ++ (u.pc.accept (u.arrived.take u.pc.want)).2 } := by
  rw [Session.resume]
  exact if_neg h

theorem resume_of_eq {u : Session} (h : u.arrived.take u.pc.want = []) :
    u.resume = { u with pc := .closed } := by
  rw [Session.resume]
  exact if_pos h

theorem totalSize_append (rs qs : List Request) :
    totalSize (rs ++ qs) = totalSize rs + totalSize qs := by
  simp [totalSize]

theorem account_resume {u : Session} (hok : u.pc.Ok) (hc : u.resume.pc ≠ .closed) :
    u.account ≤ u.resume.account ∧ u.resume.pc.Ok := by
  by_cases hg : u.arrived.take u.pc.want = []
  · rw [resume_of_eq hg] at hc
    exact absurd rfl hc
  · rw [resume_of_ne hg] at hc ⊢
    obtain ⟨hp, -⟩ := accept_progress hok (List.length_take_le _ _) hc
    refine ⟨?_, accept_ok _ _⟩
    have hlen := congrArg List.length (List.take_append_drop u.pc.want u.arrived)
    simp only [Session.account, Session.bytes, totalSize_append, List.length_append] at hp hlen ⊢
    omega

theorem account_le_of_reaches {s u : Session} (hok : s.pc.Ok) (hu : u.pc ≠ .closed)
    (h : Reaches s u) : s.account ≤ u.account := by
  obtain ⟨k, hk⟩ := h
  induction k generalizing s with
  | zero => exact (congrArg Session.account hk).le
  | succ k ih =>
    rw [Function.iterate_succ_apply] at hk
    cases hs : step s with
    | none =>
      rw [next_eq_self hs] at hk
      exact ih hok hk
    | some t =>
      rw [next_eq_of_step hs] at hk
      have htc : t.pc ≠ .closed := by
        intro hc
        rw [iterate_next_eq_self (step_closed hc)] at hk
        exact hu (hk ▸ hc)
      unfold step at hs
      split_ifs at hs with hc
      obtain ⟨v, hv, rfl⟩ := Option.map_eq_some_iff.mp hs
      obtain ⟨hb, hpc, hd, -⟩ := ready_spec hv
      have hacc : v.account = s.account := by
        simp only [Session.account, hpc, hd]
        rw [← hb]
        rfl
      obtain ⟨hle, hok'⟩ := account_resume (hpc ▸ hok) htc
      rw [← hacc]
      exact hle.trans (ih hok' hk)

/-! Cuts and complete reads. -/

/-- End offsets of the pieces still to read, for a session that has read `pos` bytes. -/
def Session.cutsFrom (s : Session) (pos : Nat) : List Nat :=
  (pos + s.arrived.length) :: cuts (pos + s.arrived.length) s.coming

def CutsAgree (o : Nat) (cs ds : List Nat) : Prop := ∀ c, o < c → (c ∈ cs ↔ c ∈ ds)

theorem CutsAgree.trans {o o' : Nat} {cs ds es : List Nat} (h : CutsAgree o cs ds)
    (h' : CutsAgree o' ds es) (hle : o ≤ o') : CutsAgree o' cs es :=
  fun c hc => (h c (by omega)).trans (h' c hc)

theorem CutsAgree.uncut {o lo len : Nat} {cs ds : List Nat} (h : CutsAgree o cs ds)
    (hlo : o ≤ lo) : Uncut cs lo len ↔ Uncut ds lo len := by
  constructor
  · intro hu c hc
    by_cases hlt : lo < c
    · exact hu c ((h c (by omega)).mpr hc)
    · exact .inl (by omega)
  · intro hu c hc
    by_cases hlt : lo < c
    · exact hu c ((h c (by omega)).mp hc)
    · exact .inl (by omega)

theorem CutsAgree.fieldsUncut {o : Nat} {cs ds : List Nat} (h : CutsAgree o cs ds)
    (fs : List Frame) {lo : Nat} (hlo : o ≤ lo) : FieldsUncut cs lo fs ↔ FieldsUncut ds lo fs := by
  induction fs generalizing lo with
  | nil => exact Iff.rfl
  | cons f fs ih =>
    simp only [FieldsUncut]
    rw [h.uncut (by omega), h.uncut (by omega), ih (by omega)]

theorem le_of_mem_cuts {o c : Nat} {ps : List (List UInt8)} (h : c ∈ cuts o ps) : o ≤ c := by
  induction ps generalizing o with
  | nil => cases h
  | cons p ps ih =>
    rcases List.mem_cons.mp h with rfl | h
    · omega
    · exact (Nat.le_add_right _ _).trans (ih h)

theorem ready_cutsFrom {s u : Session} (h : s.ready = some u) (pos : Nat) :
    CutsAgree pos (s.cutsFrom pos) (u.cutsFrom pos) := by
  unfold Session.ready at h
  split at h
  · cases h
  · rename_i ha hc
    cases h
    intro c hlt
    simp only [Session.cutsFrom, ha, hc, List.length_nil, Nat.add_zero, cuts, List.mem_cons]
    constructor
    · rintro (rfl | h)
      · omega
      · exact h
    · exact .inr
  · cases h
    exact fun c _ => Iff.rfl

/-- A read of a field returns all of it if and only if no cut lies inside. -/
theorem uncut_iff {u : Session} (ha : u.arrived ≠ []) (pos len : Nat) :
    Uncut (u.cutsFrom pos) pos len ↔ len ≤ u.arrived.length := by
  have hpos := List.length_pos_iff.mpr ha
  constructor
  · intro h
    rcases h _ List.mem_cons_self with h | h <;> omega
  · intro h c hc
    rcases List.mem_cons.mp hc with rfl | hc
    · exact .inr (by omega)
    · have := le_of_mem_cuts hc
      exact .inr (by omega)

theorem cutsFrom_drop {u : Session} {n : Nat} (hn : n ≤ u.arrived.length) (pc : Pc)
    (ds : List Request) (pos : Nat) :
    Session.cutsFrom ⟨u.arrived.drop n, u.coming, pc, ds⟩ (pos + n) = u.cutsFrom pos := by
  have he : pos + n + (u.arrived.drop n).length = pos + u.arrived.length := by
    rw [List.length_drop]
    omega
  rw [Session.cutsFrom, Session.cutsFrom, he]

/-- `t` continues `s` from offset `pos` at offset `pos'` with `rest` still to read. -/
structure Continues (s : Session) (pos : Nat) (t : Session) (pos' : Nat) (rest : List UInt8) :
    Prop where
  bytes : t.bytes = rest
  nonempty : ∀ p ∈ t.coming, p ≠ []
  agree : CutsAgree pos' (s.cutsFrom pos) (t.cutsFrom pos')

/-- A read that finds at least `field` takes exactly that much. -/
theorem step_of_available {s u : Session} {field rest : List UInt8} (hc : s.pc ≠ .closed)
    (hp : ∀ p ∈ s.coming, p ≠ []) (hb : s.bytes = field ++ rest) (hu : s.ready = some u)
    (hw : field.length ≤ s.pc.want) (hf : field ≠ []) (hlen : field.length ≤ u.arrived.length)
    (hmin : s.pc.want = field.length ∨ u.arrived.length = field.length) (pos : Nat) :
    ∃ t, step s = some t ∧ t.pc = (s.pc.accept field).1 ∧
      t.decoded = s.decoded ++ (s.pc.accept field).2 ∧
      Continues s pos t (pos + field.length) rest := by
  obtain ⟨hbu, hpc, hd, hne⟩ := ready_spec hu
  obtain ⟨-, hcoming⟩ := hne hp
  have htake : u.arrived.take u.pc.want = field := by
    have hpre : field <+: u.arrived := by
      refine List.prefix_of_prefix_length_le ⟨rest, hb.symm⟩ ⟨u.coming.flatten, hbu⟩ hlen
    obtain ⟨r, hr⟩ := hpre
    rw [hpc, ← hr]
    rcases hmin with h | h
    · rw [h, List.take_left]
    · have hrn : r = [] := by
        have := congrArg List.length hr
        rw [List.length_append] at this
        exact List.length_eq_zero_iff.mp (by omega)
      rw [hrn, List.append_nil, List.take_of_length_le hw]
  have hdrop : u.arrived.drop u.pc.want = u.arrived.drop field.length := by
    rcases hmin with h | h
    · rw [hpc, h]
    · rw [List.drop_eq_nil_of_le (by rw [hpc]; omega), List.drop_eq_nil_of_le (by omega)]
  refine ⟨u.resume, step_eq_resume hc hu, ?_⟩
  rw [resume_of_ne (by rw [htake]; exact hf), htake, hdrop, hpc, hd]
  refine ⟨rfl, rfl, ?_, hcoming, ?_⟩
  · have hsplit := List.take_append_drop u.pc.want u.arrived
    rw [htake, hdrop] at hsplit
    rw [hb, ← hsplit, List.append_assoc] at hbu
    exact List.append_cancel_left hbu
  · rw [cutsFrom_drop hlen]
    exact fun c hlt => ready_cutsFrom hu pos c (by omega)

/-- A field other than the payload is read completely, or the account grows. -/
theorem read_field {s : Session} (field rest : List UInt8) (hc : s.pc ≠ .closed) (hok : s.pc.Ok)
    (hn : ∀ modelId inputElems received, s.pc ≠ .readPayload modelId inputElems received)
    (hp : ∀ p ∈ s.coming, p ≠ []) (hb : s.bytes = field ++ rest) (hw : s.pc.want = field.length)
    (hf : field ≠ []) (pos : Nat) :
    (Uncut (s.cutsFrom pos) pos field.length ∧
      ∃ t, step s = some t ∧ t.pc = (s.pc.accept field).1 ∧
        t.decoded = s.decoded ++ (s.pc.accept field).2 ∧
        Continues s pos t (pos + field.length) rest) ∨
    (¬ Uncut (s.cutsFrom pos) pos field.length ∧
      ∃ t, step s = some t ∧ (t.pc ≠ .closed → s.account < t.account ∧ t.pc.Ok)) := by
  obtain ⟨u, hu⟩ := ready_isSome (s := s) (by simp [hb, hf])
  obtain ⟨hbu, hpc, hd, hne⟩ := ready_spec hu
  obtain ⟨ha, -⟩ := hne hp
  have hiff : Uncut (s.cutsFrom pos) pos field.length ↔ field.length ≤ u.arrived.length :=
    ((ready_cutsFrom hu pos).uncut le_rfl).trans (uncut_iff ha pos _)
  rw [hiff]
  by_cases hlen : field.length ≤ u.arrived.length
  · exact .inl ⟨hlen, step_of_available hc hp hb hu hw.ge hf hlen (.inl hw) pos⟩
  · refine .inr ⟨hlen, u.resume, step_eq_resume hc hu, fun hcl => ?_⟩
    have hall : u.arrived.take u.pc.want = u.arrived :=
      List.take_of_length_le (by rw [hpc, hw]; omega)
    rw [resume_of_ne (by rw [hall]; exact ha), hall] at hcl ⊢
    obtain ⟨-, hprog⟩ := accept_progress (hpc ▸ hok) (by rw [hpc, hw]; omega) hcl
    have hprog := hprog (hpc ▸ hn)
    refine ⟨?_, accept_ok _ _⟩
    have hbl := congrArg List.length hbu
    simp only [Session.account, totalSize_append] at hprog ⊢
    simp only [Session.bytes, List.length_append, List.length_drop] at hbl ⊢
    rw [hpc] at hprog
    rw [hpc, hd]
    omega

/-- The payload loop reads its `pl` bytes however they are cut. -/
theorem read_payload (modelId : List UInt8) (inputElems : Nat) {u : Session}
    (hu : step u = none) (n : Nat) : ∀ {s : Session} {received pl rest : List UInt8} {ds : List Request},
    pl.length = n → s.pc = (payloadLoop modelId inputElems received).1 →
    s.decoded = ds ++ (payloadLoop modelId inputElems received).2 →
    received.length + pl.length = 4 * inputElems → s.bytes = pl ++ rest →
    (∀ p ∈ s.coming, p ≠ []) → ∀ pos, ∃ t, (Reaches s u ↔ Reaches t u) ∧ t.pc = .readLen ∧
      t.decoded = ds ++ [⟨modelId, inputElems, received ++ pl⟩] ∧
      Continues s pos t (pos + pl.length) rest := by
  induction n using Nat.strong_induction_on with
  | _ n ih =>
    intro s received pl rest ds hn hpc hd hlen hb hp pos
    by_cases hlt : received.length < 4 * inputElems
    · rw [payloadLoop, if_pos hlt] at hpc hd
      have hpl : pl ≠ [] := by
        rintro rfl
        simp only [List.length_nil] at hlen
        omega
      have hc : s.pc ≠ .closed := by rw [hpc]; simp
      obtain ⟨v, hv⟩ := ready_isSome (s := s) (by simp [hb, hpl])
      obtain ⟨hbv, -, -, hne⟩ := ready_spec hv
      obtain ⟨ha, -⟩ := hne hp
      have hwant : s.pc.want = pl.length := by
        rw [hpc]
        simp only [Pc.want]
        omega
      obtain ⟨m, hm⟩ : ∃ m, m = min pl.length v.arrived.length := ⟨_, rfl⟩
      have hpos := List.length_pos_iff.mpr ha
      have hplpos := List.length_pos_iff.mpr hpl
      have htake : (pl.take m).length = m := by rw [List.length_take]; omega
      have hdrop : (pl.drop m).length = pl.length - m := List.length_drop
      have hb' : s.bytes = pl.take m ++ (pl.drop m ++ rest) := by
        rw [hb, ← List.append_assoc, List.take_append_drop]
      obtain ⟨t, ht, htpc, htd, hcont⟩ := step_of_available hc hp hb' hv (by omega)
        (List.length_pos_iff.mp (by omega)) (by omega) (by omega) pos
      rw [hpc, Pc.accept] at htpc htd
      rw [hd, List.append_nil] at htd
      obtain ⟨w, hw, hwpc, hwd, hwc⟩ := ih (n - m) (by omega) (by omega) htpc htd
        (by rw [List.length_append]; omega) hcont.bytes hcont.nonempty (pos + m)
      refine ⟨w, (reaches_iff_of_step ht hu).trans hw, hwpc, ?_, hwc.bytes, hwc.nonempty, ?_⟩
      · rw [hwd, List.append_assoc, List.take_append_drop]
      · have he : pos + m + (pl.drop m).length = pos + pl.length := by omega
        have hagree := hcont.agree
        rw [htake] at hagree
        rw [← he]
        exact hagree.trans hwc.agree (by omega)
    · rw [payloadLoop, if_neg hlt] at hpc hd
      obtain rfl : pl = [] := List.length_eq_zero_iff.mp (by omega)
      refine ⟨s, Iff.rfl, hpc, by rw [hd, List.append_nil], hb, hp, fun c _ => Iff.rfl⟩

theorem fill_of_length {len : Nat} {got : List UInt8} (h : got.length = len) :
    fill len got = got := by
  simp [fill, h]

theorem not_reaches_of_closed {s u : Session} (h : s.pc = .closed) (hu : u.pc ≠ .closed) :
    ¬ Reaches s u := by
  rintro ⟨k, hk⟩
  rw [iterate_next_eq_self (step_closed h)] at hk
  exact hu (hk ▸ h)

theorem not_reaches_of_account {s t u : Session} (hu : u.pc ≠ .closed) (hs : s.account = u.account)
    (ht : t.pc ≠ .closed → s.account < t.account ∧ t.pc.Ok) : ¬ Reaches t u := by
  by_cases hc : t.pc = .closed
  · exact not_reaches_of_closed hc hu
  · intro h
    obtain ⟨hlt, hok⟩ := ht hc
    have := account_le_of_reaches hok hu h
    omega

/-- The one-byte read is never short. -/
theorem read_len {s : Session} {len : Nat} {rest : List UInt8} (hpc : s.pc = .readLen)
    (hp : ∀ p ∈ s.coming, p ≠ []) (hb : s.bytes = leBytes 1 len ++ rest) (hlen : len < 256)
    (pos : Nat) : ∃ t, step s = some t ∧ t.pc = .readModelId len ∧ t.decoded = s.decoded ∧
      Continues s pos t (pos + 1) rest := by
  rcases read_field (leBytes 1 len) rest (by simp [hpc]) (by rw [hpc]; trivial) (by simp [hpc]) hp
    hb (by simp [hpc, Pc.want]) (by simp [leBytes]) pos with ⟨-, t, ht, htpc, htd, hc⟩ | ⟨hcut, -⟩
  · rw [hpc, Pc.accept, fill_of_length (length_leBytes 1 _), leNat_leBytes] at htpc
    rw [Nat.mod_eq_of_lt (by simpa using hlen)] at htpc
    rw [hpc, Pc.accept, List.append_nil] at htd
    rw [length_leBytes] at hc
    exact ⟨t, ht, htpc, htd, hc⟩
  · refine absurd (fun c _ => ?_) hcut
    rw [length_leBytes]
    omega

/-- The read of a `model_id`; a read of zero bytes closes the connection. -/
theorem read_modelId {s u : Session} {modelId rest : List UInt8}
    (hpc : s.pc = .readModelId modelId.length) (hp : ∀ p ∈ s.coming, p ≠ [])
    (hb : s.bytes = modelId ++ rest) (hr : rest ≠ []) (hu : step u = none) (hopen : u.pc ≠ .closed)
    (hacc : s.account = u.account) (pos : Nat) :
    (modelId ≠ [] ∧ Uncut (s.cutsFrom pos) pos modelId.length ∧
      ∃ t, step s = some t ∧ t.pc = .readInputElems modelId ∧ t.decoded = s.decoded ∧
        Continues s pos t (pos + modelId.length) rest) ∨
    (¬ (modelId ≠ [] ∧ Uncut (s.cutsFrom pos) pos modelId.length) ∧ ¬ Reaches s u) := by
  by_cases hid : modelId = []
  · obtain ⟨v, hv⟩ := ready_isSome (s := s) (by simp [hb, hr])
    obtain ⟨-, hvpc, -⟩ := ready_spec hv
    have hstep := step_eq_resume (by simp [hpc]) hv
    have hclosed : v.resume.pc = .closed := by
      rw [resume_of_eq (by rw [hvpc, hpc, hid]; rfl)]
    refine .inr ⟨fun h => h.1 hid, ?_⟩
    rw [reaches_iff_of_step hstep hu]
    exact not_reaches_of_closed hclosed hopen
  · rcases read_field modelId rest (by simp [hpc]) (by rw [hpc]; trivial) (by simp [hpc]) hp hb
      (by simp [hpc, Pc.want]) hid pos with ⟨hun, t, ht, htpc, htd, hc⟩ | ⟨hcut, t, ht, hgrow⟩
    · rw [hpc, Pc.accept, fill_of_length rfl] at htpc
      rw [hpc, Pc.accept, List.append_nil] at htd
      exact .inl ⟨hid, hun, t, ht, htpc, htd, hc⟩
    · refine .inr ⟨fun h => hcut h.2, ?_⟩
      rw [reaches_iff_of_step ht hu]
      exact not_reaches_of_account hopen hacc hgrow

/-- The read of `input_elems`. -/
theorem read_inputElems {s u : Session} {modelId rest : List UInt8} {n : Nat}
    (hpc : s.pc = .readInputElems modelId) (hp : ∀ p ∈ s.coming, p ≠ [])
    (hb : s.bytes = leBytes 4 n ++ rest) (hn : n ≤ maxElems) (hu : step u = none)
    (hopen : u.pc ≠ .closed) (hacc : s.account = u.account) (pos : Nat) :
    (Uncut (s.cutsFrom pos) pos 4 ∧
      ∃ t, step s = some t ∧ t.pc = (payloadLoop modelId n []).1 ∧
        t.decoded = s.decoded ++ (payloadLoop modelId n []).2 ∧ Continues s pos t (pos + 4) rest) ∨
    (¬ Uncut (s.cutsFrom pos) pos 4 ∧ ¬ Reaches s u) := by
  have hround : leNat (fill 4 (leBytes 4 n)) = n := by
    rw [fill_of_length (length_leBytes 4 n), leNat_leBytes, Nat.mod_eq_of_lt]
    simp only [maxElems] at hn
    omega
  have haccept : (Pc.readInputElems modelId).accept (leBytes 4 n) = payloadLoop modelId n [] := by
    simp only [Pc.accept, hround]
    exact if_neg (by omega)
  rcases read_field (leBytes 4 n) rest (by simp [hpc]) (by rw [hpc]; trivial) (by simp [hpc]) hp hb
    (by simp [hpc, Pc.want]) (by simp [leBytes]) pos with
    ⟨hun, t, ht, htpc, htd, hc⟩ | ⟨hcut, t, ht, hgrow⟩
  · rw [hpc, haccept] at htpc htd
    rw [length_leBytes] at hun hc
    exact .inl ⟨hun, t, ht, htpc, htd, hc⟩
  · rw [length_leBytes] at hcut
    refine .inr ⟨hcut, ?_⟩
    rw [reaches_iff_of_step ht hu]
    exact not_reaches_of_account hopen hacc hgrow

/-- A session at the start of an empty stream is already where it should end. -/
theorem eq_waitingAfter {s : Session} (hpc : s.pc = .readLen) (hb : s.bytes = [])
    (hp : ∀ p ∈ s.coming, p ≠ []) : s = waitingAfter s.decoded := by
  obtain ⟨arrived, coming, pc, decoded⟩ := s
  obtain ⟨ha, hf⟩ := List.append_eq_nil_iff.mp hb
  obtain rfl : coming = [] := by
    cases coming with
    | nil => rfl
    | cons p ps => exact absurd (List.append_eq_nil_iff.mp hf).1 (hp p List.mem_cons_self)
  simp only at ha hpc
  rw [ha, hpc, waitingAfter]

theorem account_waitingAfter (ds : List Request) (fs : List Frame) :
    (waitingAfter (ds ++ fs.map Frame.toRequest)).account
      = totalSize ds + (encodeAll fs).length := by
  rw [length_encodeAll]
  simp [waitingAfter, Session.account, Session.bytes, Pc.progress, totalSize, Function.comp_def]

/-- From the start of a frame the session ends in step if and only if no field is cut. -/
theorem reaches_iff_fieldsUncut (fs : List Frame) : ∀ (s : Session) (pos : Nat),
    s.pc = .readLen → s.bytes = encodeAll fs → (∀ p ∈ s.coming, p ≠ []) →
    (Reaches s (waitingAfter (s.decoded ++ fs.map Frame.toRequest)) ↔
      FieldsUncut (s.cutsFrom pos) pos fs) := by
  induction fs with
  | nil =>
    intro s pos hpc hb hp
    refine iff_of_true ⟨0, ?_⟩ trivial
    rw [List.map_nil, List.append_nil]
    exact eq_waitingAfter hpc hb hp
  | cons f fs ih =>
    intro s pos hpc hb hp
    have hacc := account_waitingAfter s.decoded (f :: fs)
    obtain ⟨u, hu⟩ : ∃ u, u = waitingAfter (s.decoded ++ (f :: fs).map Frame.toRequest) := ⟨_, rfl⟩
    have hstuck : step u = none := hu ▸ step_waitingAfter _
    have hopen : u.pc ≠ .closed := by rw [hu]; simp [waitingAfter]
    have henc : encodeAll (f :: fs) = leBytes 1 f.modelId.length ++
        (f.modelId ++ (leBytes 4 f.inputElems ++ (f.payload ++ encodeAll fs))) := by
      simp [encodeAll, Frame.encode]
    rw [← hu] at hacc ⊢
    rw [henc] at hacc hb
    simp only [List.length_append, length_leBytes] at hacc
    obtain ⟨t₁, hs₁, hpc₁, hd₁, hc₁⟩ := read_len hpc hp hb f.modelId_lt pos
    have hacc₁ : t₁.account = u.account := by
      rw [hacc, Session.account, hpc₁, hd₁, hc₁.bytes]
      simp only [Pc.progress, List.length_append, length_leBytes]
      omega
    rw [reaches_iff_of_step hs₁ hstuck, FieldsUncut, hc₁.agree.uncut le_rfl]
    rcases read_modelId hpc₁ hc₁.nonempty hc₁.bytes (by simp [leBytes]) hstuck hopen hacc₁ (pos + 1)
      with ⟨hid, hun₂, t₂, hs₂, hpc₂, hd₂, hc₂⟩ | ⟨hbad, hno⟩
    swap
    · exact iff_of_false hno fun h => hbad ⟨h.1, h.2.1⟩
    have hacc₂ : t₂.account = u.account := by
      rw [hacc, Session.account, hpc₂, hd₂, hd₁, hc₂.bytes]
      simp only [Pc.progress, List.length_append, length_leBytes]
      omega
    have hag₂ := hc₁.agree.trans hc₂.agree (by omega)
    rw [reaches_iff_of_step hs₂ hstuck, hag₂.uncut le_rfl]
    rcases read_inputElems hpc₂ hc₂.nonempty hc₂.bytes f.inputElems_le hstuck hopen hacc₂
      (pos + 1 + f.modelId.length) with ⟨hun₃, t₃, hs₃, hpc₃, hd₃, hc₃⟩ | ⟨hbad, hno⟩
    swap
    · exact iff_of_false hno fun h => hbad h.2.2.1
    obtain ⟨t₄, hr₄, hpc₄, hd₄, hc₄⟩ := read_payload f.modelId f.inputElems hstuck _ rfl hpc₃ hd₃
      (by simpa using f.payload_length) hc₃.bytes hc₃.nonempty (pos + 1 + f.modelId.length + 4)
    have hag₄ := (hag₂.trans hc₃.agree (by omega)).trans hc₄.agree (by omega)
    have hpos : pos + 1 + f.modelId.length + 4 + f.payload.length = pos + f.toRequest.size := by
      rw [f.payload_length, Request.size]
      omega
    rw [hpos] at hag₄
    rw [reaches_iff_of_step hs₃ hstuck, hr₄, hag₄.fieldsUncut fs le_rfl]
    have hih := ih t₄ (pos + f.toRequest.size) hpc₄ hc₄.bytes hc₄.nonempty
    rw [hd₄, hd₂, hd₁, List.nil_append, List.append_assoc] at hih
    rw [hu]
    exact hih.trans ⟨fun h => ⟨hid, hun₂, hun₃, h⟩, fun h => h.2.2.2⟩

/-- The stream of frames is decoded as it was encoded, with the connection left open at the end
of the last frame, if and only if no `model_id` is empty and no piece ends strictly inside a
`model_id` or an `input_elems` field. -/
theorem session_eq_waitingAfter_iff (fs : List Frame) {pieces : List (List UInt8)}
    (hne : ∀ p ∈ pieces, p ≠ []) (hsplit : pieces.flatten = encodeAll fs) :
    session pieces = waitingAfter (fs.map Frame.toRequest) ↔
      FieldsUncut (cuts 0 pieces) 0 fs := by
  rw [session_eq_iff_reaches (step_waitingAfter _)]
  have h := reaches_iff_fieldsUncut fs (start pieces) 0 rfl
    (by simp [start, Session.bytes, hsplit]) hne
  have hcuts : CutsAgree 0 ((start pieces).cutsFrom 0) (cuts 0 pieces) := by
    intro c hc
    simp only [Session.cutsFrom, start, List.length_nil, Nat.add_zero, List.mem_cons]
    constructor
    · rintro (rfl | hm)
      · omega
      · exact hm
    · exact .inr
  rw [hcuts.fieldsUncut fs le_rfl] at h
  exact h

/-- A request for the model `ab` with one element. -/
def frameAb : Frame where
  modelId := [97, 98]
  inputElems := 1
  payload := [1, 2, 3, 4]
  modelId_lt := by decide
  inputElems_le := one_le_maxElems
  payload_length := rfl

/-- Cut inside the payload only, the stream is decoded. -/
theorem session_eq_waitingAfter_iff_cutPayload :
    session [[2, 97, 98], [1, 0, 0, 0, 1], [2, 3], [4]] = waitingAfter [frameAb.toRequest] := by
  refine (session_eq_waitingAfter_iff [frameAb] (by decide) (by decide)).mpr ?_
  simp [FieldsUncut, Uncut, cuts, frameAb]

/-- Cut after the first byte of `model_id`, the request becomes one for the model `a` followed
by a zero byte, with 354 elements. -/
theorem session_cutModelId :
    [[2, 97], [98, 1, 0, 0, 0, 1, 2, 3, 4]].flatten = encodeAll [frameAb] ∧
      session [[2, 97], [98, 1, 0, 0, 0, 1, 2, 3, 4]]
        = ⟨[], [], .readPayload [97, 0] 354 [0, 1, 2, 3, 4], []⟩ ∧
      session [[2, 97], [98, 1, 0, 0, 0, 1, 2, 3, 4]] ≠ waitingAfter [frameAb.toRequest] := by
  refine ⟨by decide, by decide +kernel, by decide +kernel⟩

end SessionRead

end Jellybean.Server
