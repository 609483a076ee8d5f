import Jellybean.Server.Conversation

namespace Jellybean.Server.Conversation

open Inference
open SessionRead (Pc fill payloadLoop fill_of_length)

variable {α : Type*} {build : Request → InferenceRequest α} {f : Frame} {s t : State α}
  {requests : Nat}

/-- What the session has taken of a request. -/
def taken : Pc → List UInt8
  | .readLen | .closed => []
  | .readModelId len => leBytes 1 len
  | .readInputElems modelId => leBytes 1 modelId.length ++ modelId
  | .readPayload modelId inputElems received =>
    leBytes 1 modelId.length ++ modelId ++ leBytes 4 inputElems ++ received

/-- The session is inside the request `f`. -/
def Inside (f : Frame) : Pc → Prop
  | .readLen => True
  | .readModelId len => len = f.modelId.length
  | .readInputElems modelId => modelId = f.modelId
  | .readPayload modelId inputElems received =>
    modelId = f.modelId ∧ inputElems = f.inputElems ∧ received.length < 4 * f.inputElems
  | .closed => False

/-! One read. -/

theorem take_field {arrived later field rest : List UInt8} (h : arrived ++ later = field ++ rest)
    (hlen : field.length ≤ arrived.length) :
    arrived.take field.length = field ∧ arrived.drop field.length ++ later = rest := by
  have hprefix : field <+: arrived :=
    List.prefix_of_prefix_length_le ⟨rest, h.symm⟩ ⟨later, rfl⟩ hlen
  obtain ⟨d, rfl⟩ := hprefix
  rw [List.append_assoc] at h
  rw [List.take_left, List.drop_left]
  exact ⟨rfl, List.append_cancel_left h⟩

/-- After the payload so far, of which `left` is still to come. -/
theorem payloadLoop_cases {received left : List UInt8} (h : received ++ left = f.payload) :
    (received.length < 4 * f.inputElems ∧
      payloadLoop f.modelId f.inputElems received =
        (.readPayload f.modelId f.inputElems received, [])) ∨
    (left = [] ∧ payloadLoop f.modelId f.inputElems received = (.readLen, [f.toRequest])) := by
  have hlen := congrArg List.length h
  rw [List.length_append, f.payload_length] at hlen
  unfold payloadLoop
  split_ifs with hlt
  · exact .inl ⟨hlt, rfl⟩
  · have hleft : left = [] := List.length_eq_zero_iff.mp (by omega)
    rw [hleft, List.append_nil] at h
    rw [h]
    exact .inr ⟨hleft, rfl⟩

/-- A read of which nothing is missing leads on inside the request or to its end. -/
theorem accept_cases {pc : Pc} {arrived later : List UInt8} (hid : f.modelId ≠ [])
    (hpc : Inside f pc) (hbytes : taken pc ++ arrived ++ later = f.encode) (ha : arrived ≠ [])
    (hfield : (∃ modelId n received, pc = .readPayload modelId n received) ∨
      pc.want ≤ arrived.length) :
    arrived.take pc.want ≠ [] ∧
      ((∃ pc', pc.accept (arrived.take pc.want) = (pc', []) ∧ Inside f pc' ∧
          taken pc' ++ arrived.drop pc.want ++ later = f.encode) ∨
        (pc.accept (arrived.take pc.want) = (.readLen, [f.toRequest]) ∧
          arrived.drop pc.want = [] ∧ later = [])) := by
  have hpos := List.length_pos_iff.mpr ha
  rw [List.append_assoc] at hbytes
  cases pc with
  | closed => exact absurd hpc id
  | readLen =>
    have hrest : arrived ++ later =
        leBytes 1 f.modelId.length ++ (f.modelId ++ leBytes 4 f.inputElems ++ f.payload) := by
      rw [taken, List.nil_append] at hbytes
      rw [hbytes, Frame.encode]
      simp
    obtain ⟨htake, hdrop⟩ := take_field hrest (by rw [length_leBytes]; omega)
    rw [length_leBytes] at htake hdrop
    have hvalue : leNat (fill 1 (leBytes 1 f.modelId.length)) = f.modelId.length := by
      rw [fill_of_length (length_leBytes 1 _), leNat_leBytes]
      exact Nat.mod_eq_of_lt f.modelId_lt
    simp only [Pc.want, htake, Pc.accept, hvalue]
    refine ⟨by simp [leBytes], .inl ⟨_, rfl, rfl, ?_⟩⟩
    rw [taken, List.append_assoc, hdrop, Frame.encode]
    simp
  | readModelId len =>
    obtain rfl : len = f.modelId.length := hpc
    have hrest : arrived ++ later = f.modelId ++ (leBytes 4 f.inputElems ++ f.payload) := by
      rw [taken] at hbytes
      apply List.append_cancel_left
      rw [hbytes, Frame.encode]
      simp
    have hlen : f.modelId.length ≤ arrived.length := by
      obtain ⟨modelId, n, received, h⟩ | h := hfield
      · cases h
      · exact h
    obtain ⟨htake, hdrop⟩ := take_field hrest hlen
    simp only [Pc.want, htake, Pc.accept, fill_of_length]
    refine ⟨hid, .inl ⟨_, rfl, rfl, ?_⟩⟩
    rw [taken, List.append_assoc, hdrop, Frame.encode]
    simp
  | readInputElems modelId =>
    obtain rfl : modelId = f.modelId := hpc
    have hrest : arrived ++ later = leBytes 4 f.inputElems ++ f.payload := by
      rw [taken] at hbytes
      apply List.append_cancel_left
      rw [hbytes, Frame.encode]
      simp
    have hlen : (leBytes 4 f.inputElems).length ≤ arrived.length := by
      rw [length_leBytes]
      obtain ⟨modelId, n, received, h⟩ | h := hfield
      · cases h
      · exact h
    obtain ⟨htake, hdrop⟩ := take_field hrest hlen
    rw [length_leBytes] at htake hdrop
    have hmax := f.inputElems_le
    have hvalue : leNat (fill 4 (leBytes 4 f.inputElems)) = f.inputElems := by
      rw [fill_of_length (length_leBytes 4 _), leNat_leBytes, Nat.mod_eq_of_lt]
      simp only [maxElems] at hmax
      omega
    simp only [Pc.want, htake, Pc.accept, hvalue]
    rw [if_neg (by omega)]
    refine ⟨by simp [leBytes], ?_⟩
    have hpayload : [] ++ (arrived.drop 4 ++ later) = f.payload := hdrop
    obtain ⟨hlt, hloop⟩ | ⟨hleft, hloop⟩ := payloadLoop_cases hpayload
    · refine .inl ⟨_, hloop, ⟨rfl, rfl, hlt⟩, ?_⟩
      rw [taken, List.append_assoc, hdrop, Frame.encode]
      simp
    · obtain ⟨hnil, hlater⟩ := List.append_eq_nil_iff.mp hleft
      exact .inr ⟨hloop, hnil, hlater⟩
  | readPayload modelId n received =>
    obtain ⟨rfl, rfl, hlt⟩ := hpc
    have hrest : received ++ (arrived ++ later) = f.payload := by
      rw [taken, List.append_assoc] at hbytes
      apply List.append_cancel_left
      rw [hbytes, Frame.encode]
    have hlen := congrArg List.length hrest
    simp only [List.length_append, f.payload_length] at hlen
    have hwant : arrived.length ≤ 4 * f.inputElems - received.length := by omega
    simp only [Pc.want, List.take_of_length_le hwant, List.drop_of_length_le hwant, Pc.accept]
    refine ⟨ha, ?_⟩
    rw [← List.append_assoc] at hrest
    obtain ⟨hlt', hloop⟩ | ⟨hleft, hloop⟩ := payloadLoop_cases hrest
    · refine .inl ⟨_, hloop, ⟨rfl, rfl, hlt'⟩, ?_⟩
      rw [List.append_nil, taken, Frame.encode, ← hrest]
      simp
    · exact .inr ⟨hloop, trivial, hleft⟩

/-! The phases of a turn. -/

/-- How many of the requests have been decoded, answered, and replied to. -/
structure Counts (build : Request → InferenceRequest α) (f : Frame) (s : State α)
    (decoded answered replied : Nat) : Prop where
  decoded : s.decoded = List.replicate decoded f.toRequest
  exchanges : s.exchanges.map Exchange.req = List.replicate answered (build f.toRequest)
  replies : s.replies = (s.exchanges.take replied).map Exchange.reply

/-- Nothing is on its way to the session. -/
structure Drained (s : State α) : Prop where
  toServer : s.toServer = []
  arrived : s.arrived = []

/-- The client, in its turn number `n` of `n + 1 + left`, waits for an answer. -/
structure Waiting (requests : Nat) (s : State α) (left n : Nat) : Prop extends Drained s where
  turns : left + n + 1 = requests
  client : s.client = .receiving left

/-- More than the steps of one turn. -/
def turn (f : Frame) : Nat := 3 * f.encode.length + 8

/-- Where a client and a session in step can stand, and a bound on the steps that are left. -/
inductive Phase (build : Request → InferenceRequest α) (f : Frame) (requests : Nat) (s : State α) :
    Nat → Prop
  | asking {left n : Nat} {unsent : List UInt8} {pc : Pc} (turns : left + n + 1 = requests)
      (counts : Counts build f s n n n) (client : s.client = .sendAll left unsent)
      (session : s.session = .reading pc) (inside : Inside f pc)
      (bytes : taken pc ++ s.arrived ++ (s.toServer ++ unsent) = f.encode)
      (toClient : s.toClient = []) :
      Phase build f requests s
        (left * turn f + 3 * unsent.length + 2 * s.toServer.length + s.arrived.length + 8)
  | inferring {left n : Nat} (waiting : Waiting requests s left n)
      (counts : Counts build f s (n + 1) n n) (session : s.session = .inferring f.toRequest)
      (toClient : s.toClient = []) : Phase build f requests s (left * turn f + 8)
  | writing {left n : Nat} {w : List UInt8} {ws : List (List UInt8)} {x : Exchange α}
      (waiting : Waiting requests s left n) (counts : Counts build f s (n + 1) (n + 1) n)
      (session : s.session = .writing (w :: ws)) (last : s.exchanges[n]? = some x)
      (nonempty : ∀ v ∈ w :: ws, v ≠ []) (bytes : s.toClient ++ (w :: ws).flatten = x.sent.frame) :
      Phase build f requests s (left * turn f + ws.length + 3)
  | answered {left n : Nat} {x : Exchange α} (waiting : Waiting requests s left n)
      (counts : Counts build f s (n + 1) (n + 1) n) (session : s.session = .reading .readLen)
      (last : s.exchanges[n]? = some x) (toClient : s.toClient = x.sent.frame) :
      Phase build f requests s (left * turn f + 2)
  | done (drained : Drained s) (counts : Counts build f s requests requests requests)
      (client : s.client = .done) (session : s.session = .reading .readLen)
      (toClient : s.toClient = []) : Phase build f requests s 1
  | hungUp (drained : Drained s) (counts : Counts build f s requests requests requests)
      (client : s.client = .done) (session : s.session = .reading .closed)
      (toClient : s.toClient = []) : Phase build f requests s 0

theorem encode_ne_nil (f : Frame) : f.encode ≠ [] := by
  simp [Frame.encode, leBytes]

/-- The client turns to its next request, or is done. -/
theorem Phase.next {n left : Nat} (hleft : left + n = requests) (counts : Counts build f s n n n)
    (drained : Drained s) (client : s.client = .next f.encode left)
    (session : s.session = .reading .readLen) (toClient : s.toClient = []) :
    ∃ r ≤ left * turn f + 1, Phase build f requests s r := by
  cases left with
  | zero =>
    obtain rfl : n = requests := by omega
    exact ⟨1, Nat.le_add_left _ _, .done drained counts client session toClient⟩
  | succ left =>
    have hclient : s.client = .sendAll left f.encode := by
      rw [client, Client.sendAll, if_neg (encode_ne_nil f), Client.next]
    have hbytes : taken .readLen ++ s.arrived ++ (s.toServer ++ f.encode) = f.encode := by
      rw [drained.toServer, drained.arrived]
      rfl
    refine ⟨_, ?_, .asking (by omega) counts hclient session trivial hbytes toClient⟩
    rw [drained.toServer, drained.arrived, Nat.add_mul, one_mul, List.length_nil]
    conv_rhs => rw [turn]
    unfold turn
    omega

theorem phase_initial (build : Request → InferenceRequest α) (f : Frame) (requests : Nat) :
    ∃ r ≤ requests * turn f + 1, Phase build f requests (initial f.encode requests) r :=
  Phase.next (n := 0) rfl ⟨rfl, rfl, rfl⟩ ⟨rfl, rfl⟩ rfl rfl rfl

theorem readResponse_nil : readResponse [] = none := rfl

/-- More bytes do not change what has been read. -/
theorem recvAll_mono {n : Nat} {stream got rest : List UInt8} (more : List UInt8)
    (h : recvAll n stream = some (got, rest)) :
    recvAll n (stream ++ more) = some (got, rest ++ more) := by
  unfold recvAll at h ⊢
  split_ifs at h with hle
  cases h
  rw [if_pos (by rw [List.length_append]; omega), List.take_append_of_le_length hle,
    List.drop_append_of_le_length hle]

theorem readResponse_mono {stream rest : List UInt8} {reply : Reply} (more : List UInt8)
    (h : readResponse stream = some (reply, rest)) :
    readResponse (stream ++ more) = some (reply, rest ++ more) := by
  unfold readResponse at h ⊢
  simp only [Option.bind_eq_bind, Option.bind_eq_some_iff] at h
  obtain ⟨⟨status, stream₁⟩, h₁, ⟨latency, stream₂⟩, h₂, ⟨outElems, stream₃⟩, h₃, h⟩ := h
  simp only [Option.bind_eq_bind, recvAll_mono more h₁, Option.bind_some, recvAll_mono more h₂,
    recvAll_mono more h₃]
  split_ifs at h ⊢ with hpos
  · obtain ⟨⟨payload, stream₄⟩, h₄, h⟩ := Option.bind_eq_some_iff.mp h
    rw [recvAll_mono more h₄]
    cases h
    rfl
  · cases h
    rfl

/-- Before the last byte of a response the client goes on waiting. -/
theorem readResponse_of_lt {x : Exchange α} {stream more : List UInt8}
    (h : stream ++ more = x.sent.frame) (hmore : more ≠ []) : readResponse stream = none := by
  rw [Option.eq_none_iff_forall_ne_some]
  intro ⟨reply, rest⟩ hread
  have hall := readResponse_mono more hread
  have hframe := x.readResponse_frame []
  rw [List.append_nil, ← h, hall] at hframe
  have hrest := (Prod.mk.inj (Option.some.inj hframe)).2
  exact hmore (List.append_eq_nil_iff.mp hrest).2

theorem readResponse_sent (x : Exchange α) : readResponse x.sent.frame = some (x.reply, []) := by
  have h := x.readResponse_frame []
  rwa [List.append_nil] at h

/-! Every undisturbed step keeps the two in step. -/

theorem Counts.congr {d e k : Nat} (h : Counts build f s d e k) (hd : t.decoded = s.decoded)
    (he : t.exchanges = s.exchanges) (hr : t.replies = s.replies) : Counts build f t d e k := by
  obtain ⟨hdecoded, hexchanges, hreplies⟩ := h
  exact ⟨hd.trans hdecoded, by rw [he, hexchanges], by rw [hr, he, hreplies]⟩

theorem Waiting.congr {left n : Nat} (h : Waiting requests s left n)
    (htoServer : t.toServer = s.toServer) (harrived : t.arrived = s.arrived)
    (hclient : t.client = s.client) : Waiting requests t left n :=
  ⟨⟨htoServer.trans h.toServer, harrived.trans h.arrived⟩, h.turns, hclient.trans h.client⟩

theorem flatten_ne_nil {w : List UInt8} {ws : List (List UInt8)} (h : w ≠ []) :
    (w :: ws).flatten ≠ [] := by
  intro hnil
  exact h (List.append_eq_nil_iff.mp hnil).1

theorem Counts.length_exchanges {d e k : Nat} (h : Counts build f s d e k) :
    s.exchanges.length = e := by
  have hlen := congrArg List.length h.exchanges
  rwa [List.length_map, List.length_replicate] at hlen

theorem sendAll_eq_sending {left left' : Nat} {unsent unsent' : List UInt8}
    (h : Client.sendAll left unsent = .sending left' unsent') : left = left' ∧ unsent = unsent' := by
  unfold Client.sendAll at h
  split_ifs at h
  cases h
  exact ⟨rfl, rfl⟩

theorem sendAll_ne_done {left : Nat} {unsent : List UInt8} :
    Client.sendAll left unsent ≠ .done := by
  unfold Client.sendAll
  split_ifs
  · intro h
    cases h
  · intro h
    cases h

variable {k r : Nat}

theorem Phase.send (h : Phase build f requests s r)
    (ht : step f.encode s (.send k : Action build) = some t) :
    ∃ r' < r, Phase build f requests t r' := by
  obtain ⟨left, unsent, hc, hpos, hle, rfl⟩ := send_cases ht
  cases h with
  | inferring waiting | writing waiting | answered waiting =>
    rw [waiting.client] at hc
    cases hc
  | done drained counts client | hungUp drained counts client =>
    rw [client] at hc
    cases hc
  | asking turns counts client session inside bytes toClient =>
    obtain ⟨rfl, rfl⟩ := sendAll_eq_sending (client.symm.trans hc)
    refine ⟨_, ?_, .asking turns (counts.congr rfl rfl rfl) rfl session inside ?_ toClient⟩
    · simp only [List.length_append, List.length_take, List.length_drop]
      omega
    · dsimp only
      rw [List.append_assoc s.toServer, List.take_append_drop]
      exact bytes

theorem Phase.deliver (h : Phase build f requests s r)
    (ht : step f.encode s (.deliver k : Action build) = some t) :
    ∃ r' < r, Phase build f requests t r' := by
  obtain ⟨hpos, hle, rfl⟩ := deliver_cases ht
  have hne : s.toServer ≠ [] := List.length_pos_iff.mp (by omega)
  cases h with
  | inferring waiting | writing waiting | answered waiting => exact absurd waiting.toServer hne
  | done drained | hungUp drained => exact absurd drained.toServer hne
  | asking turns counts client session inside bytes toClient =>
    refine ⟨_, ?_, .asking turns (counts.congr rfl rfl rfl) client session inside ?_ toClient⟩
    · simp only [List.length_append, List.length_take, List.length_drop]
      omega
    · dsimp only
      rw [List.append_assoc, List.append_assoc s.arrived, ← List.append_assoc (s.toServer.take k),
        List.take_append_drop, ← List.append_assoc]
      exact bytes

/-- The session reads while its client owes it bytes, or when the client has hung up. -/
theorem Phase.read (hid : f.modelId ≠ []) (h : Phase build f requests s r)
    (hu : Undisturbed s (.read : Action build))
    (ht : step f.encode s (.read : Action build) = some t) :
    ∃ r' < r, Phase build f requests t r' := by
  obtain ⟨pc, hs, hopen, hreadable, ht⟩ := read_cases ht
  -- without bytes only the end of the connection is readable
  have hempty : s.arrived = [] → s.client = .done := by
    intro ha
    have h : s.toServer = [] ∧ s.client = .done := by simpa [readable, ha] using hreadable
    exact h.2
  cases h with
  | inferring waiting counts session | writing waiting counts session =>
    rw [session] at hs
    cases hs
  | answered waiting =>
    have hclient := hempty waiting.arrived
    rw [waiting.client] at hclient
    cases hclient
  | hungUp drained counts client session =>
    rw [session] at hs
    cases hs
    exact absurd rfl hopen
  | done drained counts client session toClient =>
    obtain ⟨-, rfl⟩ | ⟨hgot, -⟩ := ht
    · exact ⟨0, Nat.one_pos, .hungUp ⟨drained.toServer, drained.arrived⟩ (counts.congr rfl rfl rfl)
        client rfl toClient⟩
    · rw [drained.arrived, List.take_nil] at hgot
      exact absurd rfl hgot
  | @asking left n unsent pc' turns counts client session inside bytes toClient =>
    obtain rfl : pc' = pc := by
      rw [session] at hs
      cases hs
      rfl
    have ha : s.arrived ≠ [] := by
      intro ha
      have hclient := hempty ha
      rw [client] at hclient
      exact sendAll_ne_done hclient
    have hfield : (∃ modelId m received, pc' = .readPayload modelId m received) ∨
        pc'.want ≤ s.arrived.length := by
      change s.session.FieldArrived s.arrived at hu
      rw [hs] at hu
      cases pc' with
      | readPayload modelId m received => exact .inl ⟨modelId, m, received, rfl⟩
      | _ => exact .inr (hu.resolve_left ha)
    obtain ⟨hgot, hnext⟩ := accept_cases hid inside bytes ha hfield
    obtain ⟨hnil, -⟩ | ⟨-, rfl⟩ := ht
    · exact absurd hnil hgot
    have hpos := List.length_pos_iff.mpr hgot
    rw [List.length_take] at hpos
    obtain ⟨pc, haccept, hinside, hbytes⟩ | ⟨haccept, hdrop, hlater⟩ := hnext
    · rw [haccept]
      refine ⟨_, ?_, .asking turns ?_ client rfl hinside hbytes toClient⟩
      · simp only [List.length_drop]
        omega
      · exact counts.congr (List.append_nil _) rfl rfl
    · obtain ⟨htoServer, hunsent⟩ := List.append_eq_nil_iff.mp hlater
      have hclient : s.client = .receiving left := by
        rw [client, hunsent]
        rfl
      rw [haccept]
      refine ⟨_, ?_, .inferring ⟨⟨htoServer, hdrop⟩, turns, hclient⟩ ?_ rfl toClient⟩
      · omega
      · refine ⟨?_, counts.exchanges, counts.replies⟩
        dsimp only
        rw [counts.decoded, List.replicate_succ']

/-- Of a response there are at most four writes. -/
theorem length_writes_le (x : SessionWrite.Response) : x.writes.length ≤ 4 := by
  unfold SessionWrite.Response.writes
  split_ifs
  · exact le_rfl
  · exact Nat.le_succ 3

theorem Phase.respond {answer : (r : Request) → Answer (build r)} (h : Phase build f requests s r)
    (ht : step f.encode s (.respond answer) = some t) : ∃ r' < r, Phase build f requests t r' := by
  obtain ⟨req, hs, rfl⟩ := respond_cases ht
  cases h with
  | asking turns counts client session | writing waiting counts session
  | answered waiting counts session | done drained counts client session
  | hungUp drained counts client session =>
    rw [session] at hs
    cases hs
  | @inferring left n waiting counts session toClient =>
    obtain rfl : f.toRequest = req := by
      rw [session] at hs
      cases hs
      rfl
    obtain ⟨w, ws, hw⟩ : ∃ w ws, (answer f.toRequest).exchange.sent.writes = w :: ws := ⟨_, _, rfl⟩
    have hflat := (answer f.toRequest).exchange.sent.flatten_writes
    have hne := (answer f.toRequest).exchange.sent.writes_ne_nil
    have hfour := length_writes_le (answer f.toRequest).exchange.sent
    rw [hw] at hflat hne hfour
    have hlen := counts.length_exchanges
    refine ⟨_, ?_, .writing (x := (answer f.toRequest).exchange) ⟨⟨waiting.toServer,
      waiting.arrived⟩, waiting.turns, waiting.client⟩ ⟨counts.decoded, ?_, ?_⟩
      (congrArg Session.writing hw) ?_ hne ?_⟩
    · rw [List.length_cons] at hfour
      omega
    · dsimp only
      rw [List.map_append, counts.exchanges, List.replicate_succ']
      rfl
    · dsimp only
      rw [counts.replies, List.take_append_of_le_length hlen.ge]
    · dsimp only
      rw [← hlen, List.getElem?_concat_length]
    · dsimp only
      rw [toClient, hflat]
      rfl

theorem Phase.write (h : Phase build f requests s r)
    (hu : Undisturbed s (.write k : Action build))
    (ht : step f.encode s (.write k : Action build) = some t) :
    ∃ r' < r, Phase build f requests t r' := by
  obtain ⟨w', ws', hs, -, -, rfl⟩ := write_cases ht
  cases h with
  | asking turns counts client session | inferring waiting counts session
  | answered waiting counts session | done drained counts client session
  | hungUp drained counts client session =>
    rw [session] at hs
    cases hs
  | writing waiting counts session last nonempty bytes =>
    rw [session] at hs
    cases hs
    change s.session.Whole k at hu
    rw [session] at hu
    obtain rfl : k = w'.length := hu
    have hwaiting := waiting.congr (t := { s with
      session := .afterWrite ws', toClient := s.toClient ++ w'.take w'.length }) rfl rfl rfl
    rw [List.flatten_cons, ← List.append_assoc] at bytes
    cases ws' with
    | nil =>
      refine ⟨_, ?_, .answered hwaiting (counts.congr rfl rfl rfl) rfl last ?_⟩
      · rw [List.length_nil]
        omega
      · dsimp only
        rw [List.take_length, ← bytes, List.flatten_nil, List.append_nil]
    | cons v vs =>
      refine ⟨_, ?_, .writing hwaiting (counts.congr rfl rfl rfl) rfl last ?_ ?_⟩
      · rw [List.length_cons]
        omega
      · intro u hu
        exact nonempty u (List.mem_cons_of_mem _ hu)
      · dsimp only
        rw [List.take_length, bytes]

theorem Phase.receive (h : Phase build f requests s r)
    (ht : step f.encode s (.receive : Action build) = some t) :
    ∃ r' < r, Phase build f requests t r' := by
  obtain ⟨left', reply, rest, hc, hread, rfl⟩ := receive_cases ht
  cases h with
  | asking turns counts client session inside bytes toClient =>
    rw [toClient, readResponse_nil] at hread
    cases hread
  | inferring waiting counts session toClient =>
    rw [toClient, readResponse_nil] at hread
    cases hread
  | done drained counts client | hungUp drained counts client =>
    rw [client] at hc
    cases hc
  | writing waiting counts session last nonempty bytes =>
    rw [readResponse_of_lt bytes (flatten_ne_nil (nonempty _ List.mem_cons_self))] at hread
    cases hread
  | @answered left n x waiting counts session last toClient =>
    rw [toClient, readResponse_sent] at hread
    cases hread
    obtain rfl : left' = left := by
      rw [waiting.client] at hc
      cases hc
      rfl
    have hturns := waiting.turns
    have hcounts : Counts build f { s with
        client := .next f.encode left', toClient := [], replies := s.replies ++ [x.reply] }
        (n + 1) (n + 1) (n + 1) := by
      refine ⟨counts.decoded, counts.exchanges, ?_⟩
      dsimp only
      rw [counts.replies, List.take_add_one, last, List.map_append]
      rfl
    obtain ⟨r', hr', hnext⟩ := Phase.next (by omega) hcounts ⟨waiting.toServer, waiting.arrived⟩ rfl
      session rfl
    exact ⟨r', by omega, hnext⟩

theorem Phase.step {a : Action build} (hid : f.modelId ≠ []) (h : Phase build f requests s r)
    (hu : Undisturbed s a) (ht : step f.encode s a = some t) :
    ∃ r' < r, Phase build f requests t r' := by
  cases a with
  | send k => exact h.send ht
  | deliver k => exact h.deliver ht
  | read => exact h.read hid hu ht
  | respond answer => exact h.respond ht
  | write k => exact h.write hu ht
  | refuse => exact absurd hu id
  | receive => exact h.receive ht

/-! Until the client has all of its replies there is something to do. -/

/-- When the client has sent everything and the network has delivered it, no read is short. -/
theorem rest_arrived {pc : Pc} {arrived : List UInt8} (hpc : Inside f pc)
    (h : taken pc ++ arrived = f.encode) :
    arrived ≠ [] ∧ ((∃ modelId n received, pc = .readPayload modelId n received) ∨
      pc.want ≤ arrived.length) := by
  have hlen := congrArg List.length h
  rw [List.length_append, f.length_encode, Request.size] at hlen
  rw [← List.length_pos_iff]
  cases pc with
  | closed => exact absurd hpc id
  | readLen =>
    simp only [taken, List.length_nil] at hlen
    exact ⟨by omega, .inr (by simp only [Pc.want]; omega)⟩
  | readModelId len =>
    obtain rfl : len = f.modelId.length := hpc
    simp only [taken, length_leBytes] at hlen
    exact ⟨by omega, .inr (by simp only [Pc.want]; omega)⟩
  | readInputElems modelId =>
    obtain rfl : modelId = f.modelId := hpc
    simp only [taken, List.length_append, length_leBytes] at hlen
    exact ⟨by omega, .inr (by simp only [Pc.want]; omega)⟩
  | readPayload modelId n received =>
    obtain ⟨rfl, rfl, hlt⟩ := hpc
    simp only [taken, List.length_append, length_leBytes] at hlen
    exact ⟨by omega, .inl ⟨_, _, _, rfl⟩⟩

theorem read_enabled {bytes : List UInt8} {pc : Pc} (hs : s.session = .reading pc)
    (hopen : pc ≠ .closed) (hreadable : readable s = true) :
    (step bytes s (.read : Action build)).isSome = true := by
  unfold step
  simp only [hs]
  cases pc with
  | closed => exact absurd rfl hopen
  | _ =>
    rw [if_pos hreadable]
    split_ifs
    · rfl
    · rfl

/-- The runtime can always turn a request away. -/
def turnAway (req : InferenceRequest α) : Answer req where
  response := { error := "model not registered in runtime: " ++ req.modelId }
  outputBuf := List.replicate (4 * req.outputBuffer.length) 0
  responds := .notRegistered
  length_outputBuf := List.length_replicate

theorem Phase.enabled (h : Phase build f requests s r) (hr : r ≠ 0) :
    ∃ a : Action build, Undisturbed s a ∧ (Conversation.step f.encode s a).isSome = true := by
  cases h with
  | hungUp => exact absurd rfl hr
  | @asking left n unsent pc turns counts client session inside bytes toClient =>
    by_cases hunsent : unsent = []
    · by_cases hserver : s.toServer = []
      · rw [hserver, hunsent, List.append_nil, List.append_nil] at bytes
        obtain ⟨ha, hfield⟩ := rest_arrived inside bytes
        have hopen : pc ≠ .closed := by
          rintro rfl
          exact inside
        have hreadable : readable s = true := by
          cases harrived : s.arrived with
          | nil => exact absurd harrived ha
          | cons b bs => simp [readable, harrived]
        refine ⟨.read, ?_, read_enabled session hopen hreadable⟩
        show s.session.FieldArrived s.arrived
        rw [session]
        obtain ⟨modelId, m, received, rfl⟩ | hwant := hfield
        · trivial
        · cases pc with
          | readPayload => trivial
          | _ => exact .inr hwant
      · refine ⟨.deliver s.toServer.length, trivial, ?_⟩
        have hpos := List.length_pos_iff.mpr hserver
        simp [Conversation.step, hpos]
    · have hclient : s.client = .sending left unsent := by
        rw [client, Client.sendAll, if_neg hunsent]
      have hpos := List.length_pos_iff.mpr hunsent
      refine ⟨.send unsent.length, trivial, ?_⟩
      simp [Conversation.step, hclient, hpos]
  | inferring waiting counts session =>
    refine ⟨.respond fun r => turnAway (build r), trivial, ?_⟩
    simp [Conversation.step, session]
  | @writing left n w ws x waiting counts session last nonempty =>
    have hpos := List.length_pos_iff.mpr (nonempty w List.mem_cons_self)
    refine ⟨.write w.length, ?_, ?_⟩
    · show s.session.Whole w.length
      rw [session]
      rfl
    · simp [Conversation.step, session, hpos]
  | answered waiting counts session last toClient =>
    refine ⟨.receive, trivial, ?_⟩
    simp [Conversation.step, waiting.client, toClient, readResponse_sent]
  | done drained counts client session toClient =>
    refine ⟨.read, ?_, read_enabled session (by simp) ?_⟩
    · show s.session.FieldArrived s.arrived
      rw [session]
      exact .inl drained.arrived
    · simp [readable, client, drained.toServer]

theorem Phase.ended_iff (h : Phase build f requests s r) :
    r = 0 ↔ s.client = .done ∧ s.session = .reading .closed := by
  cases h with
  | hungUp drained counts client session => exact iff_of_true rfl ⟨client, session⟩
  | asking turns counts client =>
    refine iff_of_false (by omega) ?_
    intro hend
    exact sendAll_ne_done (client.symm.trans hend.1)
  | inferring waiting | writing waiting | answered waiting =>
    refine iff_of_false (by omega) ?_
    intro hend
    rw [waiting.client] at hend
    cases hend.1
  | done drained counts client session =>
    refine iff_of_false Nat.one_ne_zero ?_
    intro hend
    rw [session] at hend
    cases hend.2

/-! Whole conversations. -/

theorem Phase.of_reachable (hid : f.modelId ≠ [])
    (hr : (system build f.encode requests).ReachableUnder Undisturbed s) :
    ∃ r, Phase build f requests s r := by
  apply hr.invariant (P := fun s => ∃ r, Phase build f requests s r)
  · intro s hs
    obtain ⟨r, -, h⟩ := phase_initial build f requests
    exact ⟨r, hs ▸ h⟩
  · intro s a t h hu ht
    obtain ⟨r, h⟩ := h
    obtain ⟨r', -, h'⟩ := h.step hid hu ht
    exact ⟨r', h'⟩

theorem Phase.run_length (hid : f.modelId ≠ []) {as : List (Action build)}
    (h : Phase build f requests s r) (hc : (system build f.encode requests).Complies Undisturbed s as)
    (ht : (system build f.encode requests).run s as = some t) :
    ∃ r', as.length + r' ≤ r ∧ Phase build f requests t r' := by
  induction as generalizing s r with
  | nil =>
    cases ht
    exact ⟨r, (Nat.zero_add r).le, h⟩
  | cons a as ih =>
    rw [System.run_cons] at ht
    obtain ⟨u, hu, ht⟩ := Option.bind_eq_some_iff.mp ht
    obtain ⟨r₁, hlt, h₁⟩ := h.step hid hc.1 hu
    obtain ⟨r₂, hle, h₂⟩ := ih h₁ (hc.2 u hu) ht
    exact ⟨r₂, by rw [List.length_cons]; omega, h₂⟩

/-- The two sides agree: the session has decoded the requests that were sent, each was answered
once, and the client took the answers in order, at most one request being open. -/
structure InStep (build : Request → InferenceRequest α) (f : Frame) (requests : Nat) (s : State α) :
    Prop where
  decoded : s.decoded <+: List.replicate requests f.toRequest
  exchanges : s.exchanges.map Exchange.req <+: s.decoded.map build
  replies : s.replies = (s.exchanges.take s.replies.length).map Exchange.reply
  replied_le : s.replies.length ≤ s.exchanges.length
  decoded_le : s.decoded.length ≤ s.replies.length + 1
  stays : s.client ≠ .done → s.session ≠ .reading .closed
  finished : s.client = .done → s.replies.length = requests ∧ Drained s ∧ s.toClient = []

theorem replicate_prefix {β : Type*} (x : β) {m n : Nat} (h : m ≤ n) :
    List.replicate m x <+: List.replicate n x := by
  rw [List.prefix_replicate_iff, List.length_replicate]
  exact ⟨h, rfl⟩

theorem Counts.inStep {d e k : Nat} (h : Counts build f s d e k) (hd : d ≤ requests) (hed : e ≤ d)
    (hke : k ≤ e) (hdk : d ≤ k + 1) (hstays : s.client ≠ .done → s.session ≠ .reading .closed)
    (hfinished : s.client = .done → k = requests ∧ Drained s ∧ s.toClient = []) :
    InStep build f requests s := by
  have hlen := h.length_exchanges
  have hreplies : s.replies.length = k := by
    rw [h.replies, List.length_map, List.length_take]
    omega
  refine ⟨?_, ?_, ?_, ?_, ?_, hstays, ?_⟩
  · rw [h.decoded]
    exact replicate_prefix _ hd
  · rw [h.decoded, h.exchanges, List.map_replicate]
    exact replicate_prefix _ hed
  · rw [hreplies]
    exact h.replies
  · omega
  · rw [h.decoded, List.length_replicate]
    omega
  · rw [hreplies]
    exact hfinished

theorem Phase.inStep (h : Phase build f requests s r) : InStep build f requests s := by
  cases h with
  | asking turns counts client session inside =>
    refine counts.inStep (by omega) le_rfl le_rfl (Nat.le_succ _) ?_ ?_
    · intro _ hclosed
      rw [session] at hclosed
      cases hclosed
      exact inside
    · intro hdone
      exact absurd (client.symm.trans hdone) sendAll_ne_done
  | inferring waiting counts session =>
    have hturns := waiting.turns
    refine counts.inStep (by omega) (Nat.le_succ _) le_rfl le_rfl ?_ ?_
    · intro _ hclosed
      rw [session] at hclosed
      cases hclosed
    · intro hdone
      rw [waiting.client] at hdone
      cases hdone
  | writing waiting counts session | answered waiting counts session =>
    have hturns := waiting.turns
    refine counts.inStep (by omega) le_rfl (Nat.le_succ _) le_rfl ?_ ?_
    · intro _ hclosed
      rw [session] at hclosed
      cases hclosed
    · intro hdone
      rw [waiting.client] at hdone
      cases hdone
  | done drained counts client session toClient | hungUp drained counts client session toClient =>
    refine counts.inStep le_rfl le_rfl le_rfl (Nat.le_succ _) ?_ ?_
    · intro hne
      exact absurd client hne
    · intro _
      exact ⟨rfl, drained, toClient⟩

/-- One request for one element of the model `a`. -/
def oneRequest : InferClient.Arguments := ⟨[1], 1, [97]⟩

def buildOne : Request → InferenceRequest Nat :=
  SessionValidation.sessionRequest ⟨[1]⟩ ⟨fun _ => 0, 0, fun _ => 0⟩

/-- The request arrives in two pieces and is turned away; then the client hangs up. -/
def turnedAway : List (Action buildOne) :=
  [.send 10, .deliver 8, .read, .read, .read, .read, .deliver 2, .read,
    .respond fun r => turnAway (buildOne r), .write 1, .write 8, .write 4, .receive, .read]

end Jellybean.Server.Conversation
