import Jellybean.Telemetry.MetricsServer

namespace Jellybean.Telemetry.MetricsServer

variable {ι : Type*} {s t : State ι} {capacity : Nat}

/-- `stopped_`, the state of the listening socket that `listen_fd_` names, and whether `thread_` is
joinable. -/
abbrev Stand := Bool × Option Socket × Bool

/-- Between two calls the server is down or up. -/
def Control.stands : Control → List Stand
  | .idle | .startCas | .stopCas _ => [(true, none, false), (false, some .listening, true)]
  | .socket | .storeStopped => [(false, none, false)]
  | .bind | .listen | .abandon => [(false, some .opened, false)]
  | .forget => [(false, some .closed, false)]
  | .spawn => [(false, some .listening, false)]
  | .shutdown _ => [(true, some .listening, true)]
  | .close _ => [(true, some .shut, true)]
  | .forgetClosed _ => [(true, some .closed, true)]
  | .join _ => [(true, none, true)]
  | .leave _ | .destroyed => [(true, none, false)]

def State.stand (s : State ι) : Stand := (s.stopped, s.listenFd.map s.sockets, s.joinable)

/-- The client that the loop serves. -/
def Loop.serving : Loop ι → Option ι
  | .checkWrite i _ | .writing i _ | .closing i => some i
  | _ => .none

/-- What is left to write. -/
def Loop.rest : Loop ι → Option (ι × List UInt8)
  | .checkWrite i rest | .writing i rest => some (i, rest)
  | _ => .none

/-- The owner knows how things stand, and the loop has the only open connection. -/
structure Disciplined (s : State ι) : Prop where
  stand : s.stand ∈ s.control.stands
  thread : s.joinable = true ↔ s.loop ≠ .none
  exited : s.loop = .exited → s.stopped = true
  writing : ∀ i rest, s.loop = .writing i rest → rest ≠ []
  closed : ∀ fd, s.listenFd ≠ some fd → s.sockets fd = .unopened ∨ s.sockets fd = .closed
  conns : ∀ i, (s.clients i).conn = .opened ↔ s.loop.serving = some i
  proper : s.misuse = false

def Conn.accepted : Conn → Bool
  | .opened | .closed => true
  | .none | .queued _ => false

/-- How much of its text a client has got. -/
structure Delivered (l : Loop ι) (i : ι) (c : Client) : Prop where
  away : c.phase = .away → c.conn = .none
  served : c.served.isSome = c.conn.accepted
  fresh : c.served = none → c.data = [] ∧ c.buffer = []
  finished : c.phase = .finished → c.conn = .closed ∧ c.buffer = []
  writing : ∀ x rest, c.served = some x → l.rest = some (i, rest) →
    c.data ++ c.buffer ++ rest = x.json
  written : ∀ x, c.served = some x → (∀ rest, l.rest ≠ some (i, rest)) →
    c.data ++ c.buffer <+: x.json ∧
      (c.data ++ c.buffer = x.json ∨ c.cut = true ∨ c.phase = .gone)

structure Sound (s : State ι) : Prop extends Disciplined s where
  delivered : ∀ i, Delivered s.loop i (s.clients i)
  killed : s.killed = true → ∃ i, (s.clients i).phase = .gone

theorem Delivered.initial (l : Loop ι) (i : ι) :
    Delivered l i ⟨.away, .none, [], [], none, false⟩ where
  away := fun _ => rfl
  served := rfl
  fresh := fun _ => ⟨rfl, rfl⟩
  finished := nofun
  writing := nofun
  written := nofun

theorem Sound.initial : Sound (MetricsServer.initial : State ι) where
  stand := .head _
  thread := iff_of_false nofun fun h => h rfl
  exited := nofun
  writing := nofun
  closed := fun _ _ => .inl rfl
  conns := fun _ => iff_of_false nofun nofun
  proper := rfl
  delivered := fun i => .initial _ i
  killed := nofun

/-- A step of the owner that leaves loop and clients alone. -/
theorem Sound.control (h : Sound s) (hstand : t.stand ∈ t.control.stands)
    (hloop : t.loop = s.loop) (hjoin : t.joinable = s.joinable)
    (hstopped : t.loop = .exited → t.stopped = true) (hclients : t.clients = s.clients)
    (hclosed : ∀ fd, t.listenFd ≠ some fd → t.sockets fd = .unopened ∨ t.sockets fd = .closed)
    (hproper : t.misuse = false) (hkilled : t.killed = s.killed) : Sound t where
  stand := hstand
  thread := by
    rw [hjoin, hloop]
    exact h.thread
  exited := hstopped
  writing := by
    rw [hloop]
    exact h.writing
  closed := hclosed
  conns := by
    rw [hclients, hloop]
    exact h.conns
  proper := hproper
  delivered := by
    rw [hclients, hloop]
    exact h.delivered
  killed := by
    rw [hclients, hkilled]
    exact h.killed

/-- Closes a socket that is open. -/
theorem closeSocket_of_open (fd : Nat) (next : Control) (hu : s.sockets fd ≠ .unopened)
    (hc : s.sockets fd ≠ .closed) : closeSocket s fd next =
      { s with control := next, sockets := Function.update s.sockets fd .closed } := by
  unfold closeSocket
  cases hs : s.sockets fd with
  | unopened => exact absurd hs hu
  | closed => exact absurd hs hc
  | _ => rfl

theorem Sound.goto (h : Sound s) (next : Control) (hstand : s.stand ∈ next.stands) :
    Sound { s with control := next } :=
  h.control hstand rfl rfl h.exited rfl h.closed h.proper rfl

/-- Between two calls of its owner a server can be started or stopped. -/
theorem Sound.call (h : Sound s) (hc : s.control = .idle) (next : Control)
    (hn : next.stands = Control.idle.stands) : Sound { s with control := next } := by
  apply h.goto
  rw [hn]
  have hs := h.stand
  rw [hc] at hs
  exact hs

theorem Sound.setStopped (h : Sound s) (stopped : Bool) (next : Control)
    (hexited : s.loop = .exited → stopped = true)
    (hstand : (stopped, s.listenFd.map s.sockets, s.joinable) ∈ next.stands) :
    Sound { s with stopped := stopped, control := next } :=
  h.control hstand rfl rfl hexited rfl h.closed h.proper rfl

/-- The socket that `listen_fd_` names changes its state. -/
theorem Sound.setSocket (h : Sound s) {fd : Nat} (hfd : s.listenFd = some fd) (x : Socket)
    (next : Control) (hstand : (s.stopped, some x, s.joinable) ∈ next.stands) :
    Sound { s with control := next, sockets := Function.update s.sockets fd x } := by
  refine h.control ?_ rfl rfl h.exited rfl ?_ h.proper rfl
  · simp only [State.stand, hfd, Option.map_some, Function.update_self]
    exact hstand
  · intro fd' hne
    have hne' : fd' ≠ fd := by
      intro heq
      rw [heq] at hne
      exact hne hfd
    dsimp only
    rw [Function.update_of_ne hne']
    exact h.closed fd' hne

/-- `listen_fd_ = -1` after the socket was closed. -/
theorem Sound.forget (h : Sound s) (hfd : ∀ fd ∈ s.listenFd, s.sockets fd = .closed)
    (next : Control) (hstand : (s.stopped, none, s.joinable) ∈ next.stands) :
    Sound { s with listenFd := none, control := next } := by
  refine h.control hstand rfl rfl h.exited rfl ?_ h.proper rfl
  intro fd _
  by_cases hown : s.listenFd = some fd
  · exact .inr (hfd fd hown)
  · exact h.closed fd hown

theorem Disciplined.loop_of_not_joinable (h : Disciplined s) (hj : s.joinable = false) :
    s.loop = .none := by
  by_contra hne
  have := h.thread.mpr hne
  rw [hj] at this
  cases this

theorem Disciplined.not_exited (h : Disciplined s) (hj : s.joinable = false) :
    s.loop ≠ .exited := by
  rw [h.loop_of_not_joinable hj]
  nofun

/-- `start` from its compare-exchange to `socket`. -/
theorem Sound.startCas (h : Sound s) (hs : s.stand ∈ Control.startCas.stands) :
    Sound (if s.stopped then { s with stopped := false, control := .socket }
      else { s with control := .idle }) := by
  split_ifs with hstopped
  · simp only [Control.stands, State.stand, List.mem_cons, List.not_mem_nil, or_false,
      Prod.mk.injEq, hstopped] at hs
    obtain ⟨-, hfd, hj⟩ | ⟨hup, -⟩ := hs
    · apply h.setStopped false
      · intro he
        exact absurd he (h.not_exited hj)
      · rw [hfd, hj]
        exact .head _
    · cases hup
  · exact h.goto .idle hs

theorem Sound.stopCas (h : Sound s) {d : Bool} (hs : s.stand ∈ (Control.stopCas d).stands) :
    Sound (if s.stopped then { s with control := .leave d }
      else { s with stopped := true, control := .shutdown d }) := by
  simp only [Control.stands, State.stand, List.mem_cons, List.not_mem_nil, or_false,
    Prod.mk.injEq] at hs
  split_ifs with hstopped
  · apply h.goto
    obtain ⟨hdown, hfd, hj⟩ | ⟨hup, -⟩ := hs
    · simp only [State.stand, hdown, hfd, hj]
      exact .head _
    · rw [hstopped] at hup
      cases hup
  · apply h.setStopped true _ fun _ => rfl
    obtain ⟨hdown, -⟩ | ⟨-, hfd, hj⟩ := hs
    · exact absurd hdown hstopped
    · rw [hfd, hj]
      exact .head _

theorem Sound.socket (h : Sound s) (ok : Bool) (hs : s.stand ∈ Control.socket.stands) :
    Sound (if ok then
      { s with
        listenFd := some s.made
        sockets := Function.update s.sockets s.made .opened
        made := s.made + 1
        control := .bind }
      else { s with listenFd := none, control := .storeStopped }) := by
  simp only [Control.stands, State.stand, List.mem_singleton, Prod.mk.injEq] at hs
  obtain ⟨hstopped, hfd, hj⟩ := hs
  have hnone := Option.map_eq_none_iff.mp hfd
  split_ifs
  · refine h.control ?_ rfl rfl h.exited rfl ?_ h.proper rfl
    · simp only [State.stand, Option.map_some, Function.update_self, hstopped, hj]
      exact .head _
    · intro fd hne
      have hne' : fd ≠ s.made := by
        intro heq
        rw [heq] at hne
        exact hne rfl
      dsimp only
      rw [Function.update_of_ne hne']
      exact h.closed fd (by rw [hnone]; exact (Option.some_ne_none fd).symm)
  · apply h.forget
    · intro fd hmem
      rw [hnone] at hmem
      cases hmem
    · rw [hstopped, hj]
      exact .head _

/-- Only what is left to write for the client matters. -/
theorem Delivered.move {l l' : Loop ι} {i : ι} {c : Client} (h : Delivered l i c)
    (hl : ∀ rest, l'.rest = some (i, rest) ↔ l.rest = some (i, rest)) : Delivered l' i c where
  away := h.away
  served := h.served
  fresh := h.fresh
  finished := h.finished
  writing := by
    intro x rest hx hrest
    exact h.writing x rest hx ((hl rest).mp hrest)
  written := by
    intro x hx hnone
    apply h.written x hx
    intro rest hrest
    exact hnone rest ((hl rest).mpr hrest)

/-- The thread object gets a thread or loses it, which serves nobody. -/
theorem Sound.setThread (h : Sound s) {joinable : Bool} {l : Loop ι} {next : Control}
    (hstand : (s.stopped, s.listenFd.map s.sockets, joinable) ∈ next.stands)
    (hthread : joinable = true ↔ l ≠ .none) (hexited : l ≠ .exited)
    (hserving : s.loop.serving = .none) (hrest : s.loop.rest = .none)
    (hserving' : l.serving = .none) (hrest' : l.rest = .none) :
    Sound { s with joinable := joinable, loop := l, control := next } where
  stand := hstand
  thread := hthread
  exited := fun he => absurd he hexited
  writing := by
    intro i rest hw
    dsimp only at hw
    rw [hw] at hrest'
    cases hrest'
  closed := h.closed
  conns := by
    intro i
    rw [hserving', ← hserving]
    exact h.conns i
  proper := h.proper
  delivered := by
    intro i
    apply (h.delivered i).move
    intro rest
    rw [hrest, hrest']
  killed := h.killed

/-- The thread object gets its thread. -/
theorem Sound.spawn (h : Sound s) (hs : s.stand ∈ Control.spawn.stands) :
    Sound (if s.joinable then { s with misuse := true, control := .idle }
      else { s with joinable := true, loop := .check, control := .idle }) := by
  simp only [Control.stands, State.stand, List.mem_singleton, Prod.mk.injEq] at hs
  obtain ⟨hstopped, hfd, hj⟩ := hs
  have hloop := h.loop_of_not_joinable hj
  rw [if_neg (by rw [hj]; nofun)]
  apply h.setThread
  · rw [hstopped, hfd]
    exact .tail _ (.head _)
  · exact iff_of_true rfl nofun
  · nofun
  · rw [hloop]
    rfl
  · rw [hloop]
    rfl
  · rfl
  · rfl

/-- `join` returns. -/
theorem Sound.join (h : Sound s) {d : Bool} (hs : s.stand ∈ (Control.join d).stands)
    (hloop : s.loop = .exited) :
    Sound { s with joinable := false, loop := .none, control := .leave d } := by
  simp only [Control.stands, State.stand, List.mem_singleton, Prod.mk.injEq] at hs
  obtain ⟨hstopped, hfd, hj⟩ := hs
  apply h.setThread
  · rw [hstopped, hfd]
    exact .head _
  · exact iff_of_false nofun fun hne => hne rfl
  · nofun
  · rw [hloop]
    rfl
  · rw [hloop]
    rfl
  · rfl
  · rfl

/-- The server's socket and what it is named by. -/
theorem own_socket {c : Control} {x : Socket} {stopped joinable : Bool} (hs : s.stand ∈ c.stands)
    (hc : c.stands = [(stopped, some x, joinable)]) :
    s.stopped = stopped ∧ s.joinable = joinable ∧
      ∃ fd, s.listenFd = some fd ∧ s.sockets fd = x := by
  rw [hc] at hs
  simp only [State.stand, List.mem_singleton, Prod.mk.injEq] at hs
  obtain ⟨hstopped, hfd, hj⟩ := hs
  exact ⟨hstopped, hj, Option.map_eq_some_iff.mp hfd⟩

theorem Sound.listen (h : Sound s) (ok : Bool) (hs : s.stand ∈ Control.listen.stands) :
    ∀ t, (match s.listenFd with
      | some fd =>
        if ok then
          some { s with sockets := Function.update s.sockets fd .listening, control := .spawn }
        else some { s with control := .abandon }
      | none => some { s with control := .abandon }) = some t → Sound t := by
  obtain ⟨hstopped, hj, fd, hfd, hopened⟩ := own_socket hs rfl
  intro t ht
  split at ht
  · rename_i fd' hfd'
    obtain rfl : fd' = fd := Option.some.inj (hfd'.symm.trans hfd)
    split_ifs at ht
    · cases ht
      apply h.setSocket hfd
      rw [hstopped, hj]
      exact .head _
    · cases ht
      exact h.goto .abandon hs
  · rename_i hnone
    rw [hfd] at hnone
    cases hnone

/-- The server's own socket is closed, which is open. -/
theorem Sound.closeOwn (h : Sound s) {c next : Control} {x : Socket} {stopped joinable : Bool}
    (hs : s.stand ∈ c.stands) (hc : c.stands = [(stopped, some x, joinable)])
    (hu : x ≠ .unopened) (hx : x ≠ .closed)
    (hn : (stopped, some .closed, joinable) ∈ next.stands) :
    ∀ t, (match s.listenFd with
      | some fd => some (closeSocket s fd next)
      | none => some { s with control := next }) = some t → Sound t := by
  obtain ⟨hstopped, hj, fd, hfd, hopened⟩ := own_socket hs hc
  intro t ht
  split at ht
  · rename_i fd' hfd'
    obtain rfl : fd' = fd := Option.some.inj (hfd'.symm.trans hfd)
    cases ht
    rw [closeSocket_of_open fd' next (hopened ▸ hu) (hopened ▸ hx)]
    apply h.setSocket hfd
    rw [hstopped, hj]
    exact hn
  · rename_i hnone
    rw [hfd] at hnone
    cases hnone

theorem Sound.forgetOwn (h : Sound s) {c next : Control} {stopped joinable : Bool}
    (hs : s.stand ∈ c.stands) (hc : c.stands = [(stopped, some .closed, joinable)])
    (hn : (stopped, none, joinable) ∈ next.stands) :
    Sound { s with listenFd := none, control := next } := by
  obtain ⟨hstopped, hj, fd, hfd, hclosed⟩ := own_socket hs hc
  apply h.forget
  · intro fd' hmem
    obtain rfl : fd = fd' := Option.some.inj (hfd.symm.trans hmem)
    exact hclosed
  · rw [hstopped, hj]
    exact hn

theorem Sound.shutdown (h : Sound s) {d : Bool} (hs : s.stand ∈ (Control.shutdown d).stands) :
    ∀ t, (match s.listenFd with
      | some fd =>
        match s.sockets fd with
        | .listening =>
          some { s with sockets := Function.update s.sockets fd .shut, control := .close d }
        | _ => some { s with control := .close d }
      | none => some { s with control := .join d }) = some t → Sound t := by
  obtain ⟨hstopped, hj, fd, hfd, hlistening⟩ := own_socket hs rfl
  intro t ht
  split at ht
  · rename_i fd' hfd'
    obtain rfl : fd' = fd := Option.some.inj (hfd'.symm.trans hfd)
    rw [hlistening] at ht
    cases ht
    apply h.setSocket hfd
    rw [hstopped, hj]
    exact .head _
  · rename_i hnone
    rw [hfd] at hnone
    cases hnone

theorem Sound.leave (h : Sound s) {d : Bool} (hs : s.stand ∈ (Control.leave d).stands) :
    Sound (if d then
        if s.joinable then { s with misuse := true, control := .destroyed }
        else { s with control := .destroyed }
      else { s with control := .idle }) := by
  have hj : s.joinable = false := by
    simp only [Control.stands, State.stand, List.mem_singleton, Prod.mk.injEq] at hs
    exact hs.2.2
  rw [if_neg (c := s.joinable = true) (by rw [hj]; nofun)]
  split_ifs
  · exact h.goto .destroyed hs
  · apply h.goto
    rw [List.mem_singleton.mp hs]
    exact .head _

/-- The owner keeps to the order of its calls. -/
theorem Sound.controlStep (h : Sound s) {ok : Bool} (ht : controlStep s ok = some t) :
    Sound t := by
  have hs := h.stand
  unfold MetricsServer.controlStep at ht
  cases hc : s.control with
  | idle | destroyed =>
    rw [hc] at ht
    cases ht
  | startCas =>
    rw [hc] at ht hs
    dsimp only at ht
    rw [← apply_ite some] at ht
    exact Option.some.inj ht ▸ h.startCas hs
  | socket =>
    rw [hc] at ht hs
    dsimp only at ht
    rw [← apply_ite some] at ht
    exact Option.some.inj ht ▸ h.socket ok hs
  | bind =>
    rw [hc] at ht hs
    cases ht
    apply h.goto
    cases ok
    · exact hs
    · exact hs
  | listen =>
    rw [hc] at ht hs
    exact h.listen ok hs t ht
  | abandon =>
    rw [hc] at ht hs
    exact h.closeOwn hs rfl nofun nofun (.head _) t ht
  | forget =>
    rw [hc] at ht hs
    cases ht
    exact h.forgetOwn hs rfl (.head _)
  | storeStopped =>
    rw [hc] at ht hs
    cases ht
    apply h.setStopped true _ fun _ => rfl
    simp only [Control.stands, State.stand, List.mem_singleton, Prod.mk.injEq] at hs
    rw [hs.2.1, hs.2.2]
    exact .head _
  | spawn =>
    rw [hc] at ht hs
    dsimp only at ht
    rw [← apply_ite some] at ht
    exact Option.some.inj ht ▸ h.spawn hs
  | stopCas d =>
    rw [hc] at ht hs
    dsimp only at ht
    rw [← apply_ite some] at ht
    exact Option.some.inj ht ▸ h.stopCas hs
  | shutdown d =>
    rw [hc] at ht hs
    exact h.shutdown hs t ht
  | close d =>
    rw [hc] at ht hs
    exact h.closeOwn hs rfl nofun nofun (.head _) t ht
  | forgetClosed d =>
    rw [hc] at ht hs
    cases ht
    exact h.forgetOwn hs rfl (.head _)
  | join d =>
    rw [hc] at ht hs
    simp only [Control.stands, State.stand, List.mem_singleton, Prod.mk.injEq] at hs
    obtain ⟨hstopped, hfd, hj⟩ := hs
    dsimp only at ht
    rw [if_pos hj] at ht
    split at ht
    · rename_i hloop
      cases ht
      apply h.join _ hloop
      rw [State.stand, hstopped, hfd, hj]
      exact .head _
    · cases ht
  | leave d =>
    rw [hc] at ht hs
    dsimp only at ht
    rw [← apply_ite some, ← apply_ite some] at ht
    exact Option.some.inj ht ▸ h.leave hs

end Jellybean.Telemetry.MetricsServer
