import Jellybean.Telemetry.MetricsServerOwner

namespace Jellybean.Telemetry.MetricsServer

open Json

variable {ι : Type*} {s t : State ι} {capacity : Nat}

/-- The loop goes on and keeps its client. -/
theorem Sound.turn (h : Sound s) {l l' : Loop ι} (hl : s.loop = l) (hthread : l ≠ .none)
    (hl' : l' ≠ .none) (hexited : l' = .exited → s.stopped = true)
    (hwriting : ∀ i rest, l' = .writing i rest → rest ≠ [])
    (hserving : l'.serving = l.serving) (hrest : l'.rest = l.rest) :
    Sound { s with loop := l' } where
  stand := h.stand
  thread := iff_of_true (h.thread.mpr (by rw [hl]; exact hthread)) hl'
  exited := hexited
  writing := hwriting
  closed := h.closed
  conns := by
    intro i
    rw [hserving, ← hl]
    exact h.conns i
  proper := h.proper
  delivered := by
    intro i
    apply (h.delivered i).move
    intro rest
    rw [hrest, hl]
  killed := h.killed

/-- The loop goes on unless it sees `stopped_`. -/
theorem Sound.turnUnlessStopped (h : Sound s) {l l' : Loop ι} (hl : s.loop = l)
    (hthread : l ≠ .none) (hserving : l.serving = .none) (hrest : l.rest = .none)
    (hl' : l' ≠ .none) (hexited : l' ≠ .exited) (hserving' : l'.serving = .none)
    (hrest' : l'.rest = .none) : Sound { s with loop := if s.stopped then .exited else l' } := by
  split_ifs with hstopped
  · exact h.turn hl hthread nofun (fun _ => hstopped) nofun hserving.symm hrest.symm
  · apply h.turn hl hthread hl' (fun he => absurd he hexited)
    · intro i rest hw
      rw [hw] at hrest'
      cases hrest'
    · exact hserving'.trans hserving.symm
    · exact hrest'.trans hrest.symm

/-- What the server read of the executors for a client it has accepted. -/
theorem Delivered.exists_served {l : Loop ι} {i : ι} {c : Client} (h : Delivered l i c)
    (hc : c.conn.accepted = true) : ∃ x, c.served = some x := by
  apply Option.isSome_iff_exists.mp
  rw [h.served]
  exact hc

theorem Delivered.not_served {l : Loop ι} {i : ι} {c : Client} (h : Delivered l i c)
    (hc : c.conn.accepted = false) : c.served = none := by
  apply Option.not_isSome_iff_eq_none.mp
  rw [h.served, hc]
  nofun

theorem Delivered.not_away {l : Loop ι} {i : ι} {c : Client} (h : Delivered l i c)
    (hc : c.conn ≠ .none) : c.phase ≠ .away :=
  fun haway => hc (h.away haway)

theorem Delivered.not_finished {l : Loop ι} {i : ι} {c : Client} (h : Delivered l i c)
    (hc : c.conn ≠ .closed) : c.phase ≠ .finished :=
  fun hfinished => hc (h.finished hfinished).1

theorem Disciplined.opened (h : Disciplined s) {l : Loop ι} {i : ι} (hl : s.loop = l)
    (hserving : l.serving = some i) : (s.clients i).conn = .opened := by
  apply (h.conns i).mpr
  rw [hl]
  exact hserving

theorem Loop.serving_of_rest {l : Loop ι} {i : ι} {rest : List UInt8}
    (h : l.rest = some (i, rest)) : l.serving = some i := by
  cases l with
  | checkWrite j r | writing j r =>
    cases h
    rfl
  | _ => cases h

variable [DecidableEq ι]

/-- A client that is gone stays so. -/
theorem gone_update {clients : ι → Client} {i : ι} {c : Client}
    (hgone : (clients i).phase = .gone → c.phase = .gone) (h : ∃ j, (clients j).phase = .gone) :
    ∃ j, (Function.update clients i c j).phase = .gone := by
  obtain ⟨j, hj⟩ := h
  by_cases hji : j = i
  · refine ⟨i, ?_⟩
    rw [Function.update_self]
    rw [hji] at hj
    exact hgone hj
  · refine ⟨j, ?_⟩
    rw [Function.update_of_ne hji]
    exact hj

/-- The loop does something with the connection of one client. -/
theorem Sound.serve (h : Sound s) (i : ι) (c : Client) (l : Loop ι) (killed : Bool)
    (hthread : s.loop ≠ .none) (hl : l ≠ .none) (hexited : l ≠ .exited)
    (hwriting : ∀ j rest, l ≠ .writing j rest)
    (hconn : c.conn = .opened ↔ l.serving = some i)
    (hserving : ∀ j, j ≠ i → (l.serving = some j ↔ s.loop.serving = some j))
    (hrest : ∀ j rest, j ≠ i → (l.rest = some (j, rest) ↔ s.loop.rest = some (j, rest)))
    (hdelivered : Delivered l i c) (hgone : (s.clients i).phase = .gone → c.phase = .gone)
    (hkilled : killed = true → s.killed = true ∨ c.phase = .gone) :
    Sound { setClient s i c with loop := l, killed := killed } where
  stand := h.stand
  thread := iff_of_true (h.thread.mpr hthread) hl
  exited := fun he => absurd he hexited
  writing := fun j rest hw => absurd hw (hwriting j rest)
  closed := h.closed
  conns := by
    intro j
    dsimp only [setClient]
    by_cases hj : j = i
    · rw [hj, Function.update_self]
      exact hconn
    · rw [Function.update_of_ne hj]
      exact (h.conns j).trans (hserving j hj).symm
  proper := h.proper
  delivered := by
    intro j
    dsimp only [setClient]
    by_cases hj : j = i
    · rw [hj, Function.update_self]
      exact hdelivered
    · rw [Function.update_of_ne hj]
      exact (h.delivered j).move fun rest => hrest j rest hj
  killed := by
    intro hk
    obtain hk | hk := hkilled hk
    · exact gone_update hgone (h.killed hk)
    · refine ⟨i, ?_⟩
      dsimp only [setClient]
      rw [Function.update_self]
      exact hk

/-- A client acts while the loop stands still. -/
theorem Sound.client (h : Sound s) (i : ι) (c : Client)
    (hconn : c.conn = .opened ↔ (s.clients i).conn = .opened)
    (hdelivered : Delivered s.loop i c) (hgone : (s.clients i).phase = .gone → c.phase = .gone) :
    Sound (setClient s i c) where
  stand := h.stand
  thread := h.thread
  exited := h.exited
  writing := h.writing
  closed := h.closed
  conns := by
    intro j
    dsimp only [setClient]
    by_cases hj : j = i
    · rw [hj, Function.update_self]
      exact hconn.trans (h.conns i)
    · rw [Function.update_of_ne hj]
      exact h.conns j
  proper := h.proper
  delivered := by
    intro j
    dsimp only [setClient]
    by_cases hj : j = i
    · rw [hj, Function.update_self]
      exact hdelivered
    · rw [Function.update_of_ne hj]
      exact h.delivered j
  killed := fun hk => gone_update hgone (h.killed hk)

theorem Sound.accept (h : Sound s) {i : ι} {x : Snapshot} (ht : accept s i x = some t) :
    Sound t := by
  unfold MetricsServer.accept at ht
  split at ht
  · rename_i fd fd' hloop hconn
    split_ifs at ht
    cases ht
    have hd := h.delivered i
    have hserved := hd.not_served (congrArg Conn.accepted hconn)
    obtain ⟨hdata, hbuffer⟩ := hd.fresh hserved
    apply h.serve i _ _ s.killed
    · rw [hloop]
      nofun
    · nofun
    · nofun
    · nofun
    · exact iff_of_true rfl rfl
    · intro j hj
      rw [hloop]
      exact iff_of_false (fun heq => hj (Option.some.inj heq).symm) nofun
    · intro j rest hj
      rw [hloop]
      exact iff_of_false (fun heq => hj (congrArg Prod.fst (Option.some.inj heq)).symm) nofun
    · refine ⟨?_, rfl, nofun, ?_, ?_, ?_⟩
      · intro haway
        exact absurd haway (hd.not_away (by rw [hconn]; nofun))
      · intro hfinished
        exact absurd hfinished (hd.not_finished (by rw [hconn]; nofun))
      · intro x' rest hx hrest
        cases hx
        cases hrest
        dsimp only
        rw [hdata, hbuffer]
        rfl
      · intro x' _ hne
        exact absurd rfl (hne _)
    · exact id
    · exact .inl
  · cases ht

theorem setClient_self (s : State ι) (i : ι) : setClient s i (s.clients i) = s := by
  unfold setClient
  rw [Function.update_eq_self]

/-- `accept_loop` writes no more to its client. -/
theorem Sound.stopWriting (h : Sound s) {i : ι} {rest : List UInt8}
    (hrest : s.loop.rest = some (i, rest)) (cut killed : Bool)
    (hwhy : rest = [] ∨ cut = true ∨ (s.clients i).phase = .gone)
    (hkilled : killed = true → s.killed = true ∨ (s.clients i).phase = .gone) :
    Sound { setClient s i { s.clients i with cut := cut } with
      loop := .closing i, killed := killed } := by
  have hserving := Loop.serving_of_rest hrest
  have hd := h.delivered i
  apply h.serve i _ _ killed
  · intro hnone
    rw [hnone] at hrest
    cases hrest
  · nofun
  · nofun
  · nofun
  · exact iff_of_true ((h.conns i).mpr hserving) rfl
  · intro j _
    rw [hserving]
    exact .rfl
  · intro j rest' hj
    rw [hrest]
    exact iff_of_false nofun fun heq => hj (congrArg Prod.fst (Option.some.inj heq)).symm
  · refine ⟨hd.away, hd.served, hd.fresh, hd.finished, nofun, ?_⟩
    intro x hx _
    have hall := hd.writing x rest hx hrest
    refine ⟨⟨rest, hall⟩, ?_⟩
    apply hwhy.imp_left
    intro hnil
    rw [hnil, List.append_nil] at hall
    exact hall
  · exact id
  · exact hkilled

theorem Sound.checkWrite (h : Sound s) {i : ι} {rest : List UInt8}
    (hloop : s.loop = .checkWrite i rest) :
    Sound (if rest = [] then { s with loop := .closing i }
      else if s.stopped then
        { setClient s i { s.clients i with cut := true } with loop := .closing i }
      else { s with loop := .writing i rest }) := by
  have hrest : s.loop.rest = some (i, rest) := by
    rw [hloop]
    rfl
  split_ifs with hnil
  · have hstop := h.stopWriting hrest (s.clients i).cut s.killed (.inl hnil) .inl
    rw [setClient_self] at hstop
    exact hstop
  · exact h.stopWriting hrest true s.killed (.inr (.inl rfl)) .inl
  · refine h.turn hloop nofun nofun nofun ?_ rfl rfl
    intro j rest' heq
    cases heq
    exact hnil

theorem Sound.closing (h : Sound s) {i : ι} (hloop : s.loop = .closing i) :
    ∀ t, (match (s.clients i).conn with
      | .opened => some { setClient s i { s.clients i with conn := .closed } with loop := .check }
      | _ => some { s with loop := .check, misuse := true }) = some t → Sound t := by
  have hopened := h.opened hloop rfl
  have hd := h.delivered i
  intro t ht
  rw [hopened] at ht
  cases ht
  apply h.serve i _ _ s.killed
  · rw [hloop]
    nofun
  · nofun
  · nofun
  · nofun
  · exact iff_of_false nofun nofun
  · intro j hj
    rw [hloop]
    exact iff_of_false nofun fun heq => hj (Option.some.inj heq).symm
  · intro j rest _
    rw [hloop]
    exact .rfl
  · refine ⟨?_, ?_, hd.fresh, ?_, nofun, ?_⟩
    · intro haway
      exact absurd haway (hd.not_away (by rw [hopened]; nofun))
    · have hserved := hd.served
      rw [hopened] at hserved
      exact hserved
    · intro hfinished
      exact absurd hfinished (hd.not_finished (by rw [hopened]; nofun))
    · intro x hx _
      apply hd.written x hx
      rw [hloop]
      nofun
  · exact id
  · exact .inl

theorem Sound.loopStep (h : Sound s) (ht : loopStep s = some t) : Sound t := by
  unfold MetricsServer.loopStep at ht
  cases hl : s.loop with
  | none | exited | writing =>
    rw [hl] at ht
    cases ht
  | check =>
    rw [hl] at ht
    cases ht
    exact h.turnUnlessStopped hl nofun rfl rfl nofun nofun rfl rfl
  | load =>
    rw [hl] at ht
    cases ht
    exact h.turn hl nofun nofun nofun nofun rfl rfl
  | accept fd =>
    rw [hl] at ht
    dsimp only at ht
    split at ht
    · cases ht
    · cases ht
      exact h.turn hl nofun nofun nofun nofun rfl rfl
  | failed =>
    rw [hl] at ht
    cases ht
    exact h.turnUnlessStopped hl nofun rfl rfl nofun nofun rfl rfl
  | checkWrite i rest =>
    rw [hl] at ht
    dsimp only at ht
    rw [← apply_ite some, ← apply_ite some] at ht
    exact Option.some.inj ht ▸ h.checkWrite hl
  | closing i =>
    rw [hl] at ht
    exact h.closing hl t ht

theorem Sound.write (h : Sound s) {k : Nat} (ht : write capacity s k = some t) : Sound t := by
  unfold MetricsServer.write at ht
  split at ht
  · rename_i i rest hloop
    split_ifs at ht
    cases ht
    have hd := h.delivered i
    have hopened := h.opened hloop rfl
    apply h.serve i _ _ s.killed
    · rw [hloop]
      nofun
    · nofun
    · nofun
    · nofun
    · exact iff_of_true hopened rfl
    · intro j _
      rw [hloop]
      exact .rfl
    · intro j rest' hj
      have hother : ∀ r, (some (i, r) : Option (ι × List UInt8)) ≠ some (j, rest') := by
        intro r heq
        exact hj (congrArg Prod.fst (Option.some.inj heq)).symm
      rw [hloop]
      exact iff_of_false (hother _) (hother _)
    · refine ⟨hd.away, hd.served, ?_, ?_, ?_, ?_⟩
      · intro hnone
        have hserved := hd.served
        rw [hopened, hnone] at hserved
        cases hserved
      · intro hfinished
        exact absurd hfinished (hd.not_finished (by rw [hopened]; nofun))
      · intro x rest' hx hrest
        cases hrest
        have hall := hd.writing x rest hx (by rw [hloop]; rfl)
        dsimp only
        rw [← hall]
        simp only [List.append_assoc, List.take_append_drop]
      · intro x _ hne
        exact absurd rfl (hne _)
    · exact id
    · exact .inl
  · cases ht

theorem Sound.writeError (h : Sound s) {killed : Bool} (ht : writeError s killed = some t) :
    Sound t := by
  unfold MetricsServer.writeError at ht
  split at ht
  · rename_i i rest hloop
    split_ifs at ht with hgone
    cases ht
    have hrest : s.loop.rest = some (i, rest) := by
      rw [hloop]
      rfl
    have hstop := h.stopWriting hrest (s.clients i).cut killed (.inr (.inr hgone))
      fun _ => .inr hgone
    rw [setClient_self] at hstop
    exact hstop
  · cases ht

theorem Sound.connect (h : Sound s) {i : ι} (haway : (s.clients i).phase = .away) (fd : Nat) :
    Sound (setClient s i { s.clients i with phase := .reading, conn := .queued fd }) := by
  have hd := h.delivered i
  have hnone := hd.away haway
  have hserved := hd.not_served (congrArg Conn.accepted hnone)
  apply h.client
  · rw [hnone]
    exact iff_of_false nofun nofun
  · refine ⟨nofun, ?_, hd.fresh, nofun, hd.writing, ?_⟩
    · dsimp only
      rw [hserved]
      rfl
    · intro x hx
      dsimp only at hx
      rw [hserved] at hx
      cases hx
  · intro hgone
    rw [haway] at hgone
    cases hgone

theorem Sound.recv (h : Sound s) {i : ι} (hreading : (s.clients i).phase = .reading) (k : Nat) :
    Sound (setClient s i { s.clients i with
      buffer := (s.clients i).buffer.drop k
      data := (s.clients i).data ++ (s.clients i).buffer.take k }) := by
  have hd := h.delivered i
  have hsame : (s.clients i).data ++ (s.clients i).buffer.take k ++ (s.clients i).buffer.drop k =
      (s.clients i).data ++ (s.clients i).buffer := by
    rw [List.append_assoc, List.take_append_drop]
  apply h.client
  · exact .rfl
  · refine ⟨hd.away, hd.served, ?_, ?_, ?_, ?_⟩
    · intro hnone
      obtain ⟨hdata, hbuffer⟩ := hd.fresh hnone
      dsimp only
      rw [hdata, hbuffer, List.take_nil, List.drop_nil]
      exact ⟨rfl, rfl⟩
    · intro hfinished
      dsimp only at hfinished
      rw [hreading] at hfinished
      cases hfinished
    · intro x rest hx hrest
      dsimp only
      rw [hsame]
      exact hd.writing x rest hx hrest
    · intro x hx hne
      dsimp only
      rw [hsame]
      exact hd.written x hx hne
  · exact id

theorem Sound.eof (h : Sound s) {i : ι} (hreading : (s.clients i).phase = .reading)
    (hbuffer : (s.clients i).buffer = []) (hclosed : (s.clients i).conn = .closed) :
    Sound (setClient s i { s.clients i with phase := .finished }) := by
  have hd := h.delivered i
  have hnot : (s.clients i).phase ≠ .gone := by
    rw [hreading]
    nofun
  apply h.client
  · exact .rfl
  · refine ⟨nofun, hd.served, hd.fresh, fun _ => ⟨hclosed, hbuffer⟩, hd.writing, ?_⟩
    intro x hx hne
    obtain ⟨hstart, hall⟩ := hd.written x hx hne
    refine ⟨hstart, ?_⟩
    obtain hall | hcut | hgone := hall
    · exact .inl hall
    · exact .inr (.inl hcut)
    · exact absurd hgone hnot
  · intro hgone
    exact absurd hgone hnot

theorem Sound.give (h : Sound s) (i : ι) :
    Sound (setClient s i { s.clients i with phase := .gone }) := by
  have hd := h.delivered i
  apply h.client
  · exact .rfl
  · refine ⟨nofun, hd.served, hd.fresh, nofun, hd.writing, ?_⟩
    intro x hx hne
    exact ⟨(hd.written x hx hne).1, .inr (.inr rfl)⟩
  · exact fun _ => rfl

theorem Sound.clientStep (h : Sound s) {i : ι} {a : Action ι} (ht : clientStep s i a = some t) :
    Sound t := by
  cases a with
  | connect _ fd =>
    dsimp only [MetricsServer.clientStep] at ht
    split_ifs at ht with hif
    exact Option.some.inj ht ▸ h.connect hif.1 fd
  | recv _ k =>
    dsimp only [MetricsServer.clientStep] at ht
    split_ifs at ht with hif
    exact Option.some.inj ht ▸ h.recv hif.1 k
  | eof _ =>
    dsimp only [MetricsServer.clientStep] at ht
    split_ifs at ht with hif
    exact Option.some.inj ht ▸ h.eof hif.1 hif.2.1 hif.2.2
  | give _ =>
    dsimp only [MetricsServer.clientStep] at ht
    split_ifs at ht with hif
    exact Option.some.inj ht ▸ h.give i
  | _ => cases ht

theorem Sound.step (h : Sound s) {a : Action ι} (ht : step capacity s a = some t) : Sound t := by
  unfold MetricsServer.step at ht
  split_ifs at ht
  cases a with
  | start =>
    dsimp only at ht
    split at ht
    · rename_i hc
      exact Option.some.inj ht ▸ h.call hc .startCas rfl
    · cases ht
  | stop d =>
    dsimp only at ht
    split at ht
    · rename_i hc
      exact Option.some.inj ht ▸ h.call hc (.stopCas d) rfl
    · cases ht
  | control ok => exact h.controlStep ht
  | loop => exact h.loopStep ht
  | accept i x => exact h.accept ht
  | acceptError =>
    dsimp only at ht
    split at ht
    · rename_i fd hl
      exact Option.some.inj ht ▸ h.turn hl nofun nofun nofun nofun rfl rfl
    · cases ht
  | write k => exact h.write ht
  | writeError | sigpipe => exact h.writeError ht
  | connect | recv | eof | give => exact h.clientStep ht

theorem Sound.of_reachable (hs : (system ι capacity).Reachable s) : Sound s := by
  refine hs.invariant ?_ ?_
  · intro s hi
    rw [show s = MetricsServer.initial from hi]
    exact .initial
  · exact fun s a t h ht => h.step ht

/-! What a run comes to. -/

/-- Nothing is left of the server. -/
structure Down (s : State ι) : Prop where
  stopped : s.stopped = true
  thread : s.joinable = false ∧ s.loop = .none
  sockets : ∀ fd, s.sockets fd = .unopened ∨ s.sockets fd = .closed
  conns : ∀ i, (s.clients i).conn ≠ .opened

/-- The server listens on one socket and has its thread. -/
structure Up (s : State ι) (fd : Nat) : Prop where
  stopped : s.stopped = false
  thread : s.joinable = true ∧ s.loop ≠ .none ∧ s.loop ≠ .exited
  listening : s.listenFd = some fd ∧ s.sockets fd = .listening
  sockets : ∀ fd', fd' ≠ fd → s.sockets fd' = .unopened ∨ s.sockets fd' = .closed

omit [DecidableEq ι] in
theorem Disciplined.down (h : Disciplined s) (hs : s.stand = (true, none, false)) : Down s := by
  simp only [State.stand, Prod.mk.injEq] at hs
  obtain ⟨hstopped, hfd, hj⟩ := hs
  have hloop := h.loop_of_not_joinable hj
  refine ⟨hstopped, ⟨hj, hloop⟩, ?_, ?_⟩
  · intro fd
    apply h.closed
    rw [Option.map_eq_none_iff.mp hfd]
    exact (Option.some_ne_none fd).symm
  · intro i hopened
    have hserving := (h.conns i).mp hopened
    rw [hloop] at hserving
    cases hserving

omit [DecidableEq ι] in
theorem Disciplined.up (h : Disciplined s) (hs : s.stand = (false, some .listening, true)) :
    ∃ fd, Up s fd := by
  simp only [State.stand, Prod.mk.injEq] at hs
  obtain ⟨hstopped, hfd, hj⟩ := hs
  obtain ⟨fd, hfd, hlistening⟩ := Option.map_eq_some_iff.mp hfd
  refine ⟨fd, hstopped, ⟨hj, h.thread.mp hj, ?_⟩, ⟨hfd, hlistening⟩, ?_⟩
  · intro he
    have := h.exited he
    rw [hstopped] at this
    cases this
  · intro fd' hne
    apply h.closed
    rw [hfd]
    exact fun heq => hne (Option.some.inj heq).symm

def Snapshot.empty : Snapshot := ⟨[], .nil⟩

/-- The server comes up, serves a client in two pieces and is stopped in its next `accept`. -/
def oneClient : List (Action Unit) :=
  [.start, .control true, .control true, .control true, .control true, .control true,
    .connect () 0, .loop, .loop, .accept () .empty, .loop, .write 1, .recv () 1, .loop,
    .write 3, .recv () 3, .loop, .loop, .eof (), .loop, .loop, .stop false, .control true,
    .control true, .control true, .control true, .loop, .loop, .control true, .control true]

theorem Snapshot.exports (x : Snapshot) (hplain : ∀ e ∈ x.executors, Plain e.1) :
    ExportsRight x.executors := by
  refine ⟨_, parse_serialize ?_, decodes_modelMembers ?_⟩
  · intro m hm
    obtain ⟨e, he, rfl⟩ := List.mem_map.mp hm
    exact hplain e he
  · rw [getAllMetrics, List.map_map]
    exact x.nodup

end Jellybean.Telemetry.MetricsServer
