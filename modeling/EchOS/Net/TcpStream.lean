import EchOS.Net.Tcp

/-! What a connection has received of the byte stream of its peer. The data of a segment is put at
the end of what is there, so the stream survives the deliveries in order. -/

namespace EchOS.Net.Tcp

open Effect

variable {Cc : Type}

def KeepsRx (host host' : Host Cc) : Prop := host'.conn.rxBuffer = host.conn.rxBuffer

instance : IsPreorder (Host Cc) KeepsRx where
  refl _ := rfl
  trans _ _ _ hab hbc := Eq.trans hbc hab

/-- The acknowledgement numbers of the segments sent that only acknowledge. -/
def Host.acks (host : Host Cc) : List UInt32 :=
  (host.sent.filter fun s => s.header.flags = .ackOnly ∧ s.data = []).map (·.header.ackNum)

def Host.view (host : Host Cc) : List (BitVec 8) × UInt32 × TcpState × List UInt32 :=
  (host.conn.rxBuffer, host.conn.ackNum, host.conn.state, host.acks)

def Passes (host host' : Host Cc) : Prop := host'.view = host.view

instance : IsPreorder (Host Cc) Passes where
  refl _ := rfl
  trans _ _ _ hab hbc := Eq.trans hbc hab

section Passes

theorem Passes.rx {host host' : Host Cc} (h : Passes host host') : KeepsRx host host' :=
  congrArg Prod.fst h

theorem passes_sendPacket {flags : TcpFlags} {data : List (BitVec 8)}
    (h : ¬(flags = .ackOnly ∧ data = [])) :
    Relates Passes (sendPacket flags data : Call Cc Unit) := by
  intro host
  unfold Passes after sendPacket
  cases host.conn.localAddr.ip <;> cases host.conn.remote.ip <;>
    cases host.refuses host.packets <;>
    simp [Host.view, Host.acks, TcpConnection.segment, h]

variable (algorithm : Congestion Cc) (header : TcpHeader)

theorem passes_fastRetransmit : Relates Passes (fastRetransmit algorithm header) := by
  refine relates_get.bind fun host => ?_
  refine .bind (relates_modify fun _ => rfl) fun _ => ?_
  apply Relates.when
  refine .bind (relates_modify fun _ => rfl) fun _ => ?_
  split_ifs with hsome
  · exact passes_sendPacket (by simpa using hsome)
  · exact relates_pure _

theorem passes_advanceUna : Relates Passes (advanceUna algorithm header) := by
  apply relates_modify
  intro host
  dsimp only
  split_ifs
  · rfl
  · rfl

theorem passes_processAck : Relates Passes (processAck algorithm header) := by
  apply Relates.when
  exact (passes_fastRetransmit algorithm header).bind fun _ => passes_advanceUna algorithm header

theorem passes_refuseAck (data : List (BitVec 8)) :
    Relates Passes (refuseAck header data : Call Cc Unit) :=
  relates_get.bind fun _ => (passes_sendPacket (by decide)).when

end Passes

theorem conn_sendPacket (flags : TcpFlags) (data : List (BitVec 8)) (host : Host Cc) :
    (after (sendPacket flags data) host).conn = host.conn := by
  unfold after sendPacket
  cases host.conn.localAddr.ip <;> cases host.conn.remote.ip <;>
    cases host.refuses host.packets <;> rfl

theorem keepsRx_sendPacket (flags : TcpFlags) (data : List (BitVec 8)) :
    Relates KeepsRx (sendPacket flags data : Call Cc Unit) := by
  intro host
  unfold KeepsRx
  rw [conn_sendPacket]

theorem keepsRx_modifyConn {f : TcpConnection Cc → TcpConnection Cc}
    (h : ∀ conn, (f conn).rxBuffer = conn.rxBuffer) : Relates KeepsRx (modifyConn f) :=
  relates_modify fun host => h host.conn

theorem keepsRx_modify_send {f : Host Cc → Host Cc} (flags : TcpFlags) (data : List (BitVec 8))
    (h : ∀ host, KeepsRx host (f host)) :
    Relates KeepsRx (do modify f; sendPacket flags data : Call Cc Unit) :=
  (relates_modify h).bind fun _ => keepsRx_sendPacket flags data

theorem rxBuffer_negotiateMss (options : TcpOptions) (conn : TcpConnection Cc) :
    (negotiateMss options conn).rxBuffer = conn.rxBuffer := by
  unfold negotiateMss
  cases options.mss with
  | none => rfl
  | some peerMss =>
    dsimp only
    split_ifs
    · rfl
    · rfl

section Keeps

variable (algorithm : Congestion Cc) (header : TcpHeader) (options : TcpOptions)

theorem keepsRx_onListen : Relates KeepsRx (onListen header options : Call Cc Unit) := by
  apply Relates.when
  apply keepsRx_modify_send
  intro host
  exact rxBuffer_negotiateMss options _

theorem keepsRx_onSynSent : Relates KeepsRx (onSynSent header options : Call Cc Unit) := by
  apply Relates.ite
  · apply keepsRx_modify_send
    intro host
    exact rxBuffer_negotiateMss options _
  · exact .when (keepsRx_modify_send _ _ fun _ => rfl)

theorem keepsRx_onSynReceived : Relates KeepsRx (onSynReceived header : Call Cc Unit) := by
  exact .when (keepsRx_modifyConn fun _ => rfl)

theorem keepsRx_enterTimeWait : Relates KeepsRx (enterTimeWait header : Call Cc Unit) := by
  apply Relates.when
  refine .bind (keepsRx_modifyConn fun _ => rfl) fun _ => ?_
  exact (keepsRx_sendPacket _ _).bind fun _ => relates_modify fun _ => rfl

theorem keepsRx_onFinWait1 : Relates KeepsRx (onFinWait1 header : Call Cc Unit) := by
  apply Relates.bind
  · apply keepsRx_modifyConn
    intro conn
    split_ifs
    · rfl
    · rfl
  · exact fun _ => keepsRx_enterTimeWait header

end Keeps

/-- The buffer stays, or the data of the segment is put at its end. -/
def AppendsRx (data : List (BitVec 8)) (host host' : Host Cc) : Prop :=
  KeepsRx host host' ∨ host'.conn.rxBuffer = host.conn.rxBuffer ++ data

variable {data : List (BitVec 8)} {a b c : Host Cc}

theorem AppendsRx.keep_left (hab : KeepsRx a b) (hbc : AppendsRx data b c) :
    AppendsRx data a c := by
  unfold AppendsRx KeepsRx at *
  rwa [← hab]

theorem AppendsRx.keep_right (hab : AppendsRx data a b) (hbc : KeepsRx b c) :
    AppendsRx data a c := by
  unfold AppendsRx KeepsRx at *
  rwa [hbc]

theorem appendsRx_receiveData (data : List (BitVec 8)) :
    Relates (AppendsRx data) (receiveData data : Call Cc Unit) := by
  apply Relates.ite
  · refine .comp (Q := AppendsRx data) (fun _ _ => id) (fun _ _ _ => .keep_right) ?_ fun _ =>
      keepsRx_sendPacket _ _
    exact relates_modify fun _ => .inr rfl
  · exact fun _ => .inl rfl

section Packet

variable (algorithm : Congestion Cc) (header : TcpHeader) (data : List (BitVec 8)) (host : Host Cc)

theorem appendsRx_onEstablished :
    Relates (AppendsRx data) (onEstablished algorithm header data) := by
  refine (passes_processAck algorithm header).comp (fun _ _ h => .inl h.rx)
    (fun _ _ _ h => .keep_left h.rx) fun _ => ?_
  refine (appendsRx_receiveData data).comp (fun _ _ => id) (fun _ _ _ => .keep_right) fun _ => ?_
  refine .bind (.when (keepsRx_modify_send _ _ fun _ => rfl)) fun _ host => ?_
  exact (passes_refuseAck header data host).rx

theorem after_get_bind (f : Host Cc → Call Cc Unit) (host : Host Cc) :
    after (get >>= f) host = after (f host) host := rfl

theorem rxBuffer_onState (options : TcpOptions) :
    KeepsRx host (after (onState algorithm header data options) host) ∨
      host.conn.state = .established ∧
        (after (onState algorithm header data options) host).conn.rxBuffer =
          host.conn.rxBuffer ++ data := by
  rw [onState, after_get_bind]
  cases host.conn.state with
  | established =>
    rcases appendsRx_onEstablished algorithm header data host with hkeep | happend
    · exact .inl hkeep
    · exact .inr ⟨rfl, happend⟩
  | listen => exact .inl (keepsRx_onListen header options host)
  | synSent => exact .inl (keepsRx_onSynSent header options host)
  | synReceived => exact .inl (keepsRx_onSynReceived header host)
  | finWait1 => exact .inl (keepsRx_onFinWait1 header host)
  | finWait2 => exact .inl (keepsRx_enterTimeWait header host)
  | lastAck => exact .inl (keepsRx_modifyConn (fun conn => by split_ifs <;> rfl) host)
  | closing => exact .inl (relates_modify (R := KeepsRx) (fun host => by split_ifs <;> rfl) host)
  | closed | closeWait | timeWait => exact .inl rfl

theorem after_ownOptions : after (ownOptions header) host = host := by
  unfold ownOptions
  split
  · rfl
  · rfl

theorem after_noteAck :
    (after (noteAck header) host).conn.rxBuffer = host.conn.rxBuffer ∧
      (after (noteAck header) host).conn.state = host.conn.state := by
  show (ite _ _ _ : TcpConnection Cc).rxBuffer = _ ∧ (ite _ _ _ : TcpConnection Cc).state = _
  split_ifs
  · exact ⟨rfl, rfl⟩
  · exact ⟨rfl, rfl⟩

theorem rxBuffer_onPacket :
    KeepsRx host (after (onPacket algorithm header data) host) ∨
      host.conn.state = .established ∧
        (after (onPacket algorithm header data) host).conn.rxBuffer =
          host.conn.rxBuffer ++ data := by
  unfold onPacket
  split_ifs with hrst
  · left
    exact keepsRx_modifyConn (fun conn => by split <;> rfl) host
  · obtain ⟨hrx, hstate⟩ := after_noteAck header host
    obtain h | ⟨_, h⟩ := after_bind (noteAck header) (fun _ => do
      let options ← ownOptions header
      onState algorithm header data options) host
    · rw [h]
      exact .inl hrx
    · rw [h]
      obtain h | ⟨options, h⟩ := after_bind (ownOptions header)
        (fun options => onState algorithm header data options) (after (noteAck header) host)
      · rw [h, after_ownOptions]
        exact .inl hrx
      · rw [h, after_ownOptions]
        unfold KeepsRx
        rw [← hrx, ← hstate]
        exact rxBuffer_onState algorithm header data _ options

end Packet

/-- A connection and the bytes that `recv` has returned from it. -/
structure Receiver (Cc : Type) where
  host : Host Cc
  returned : List (BitVec 8)

def Receiver.received (r : Receiver Cc) : List (BitVec 8) := r.returned ++ r.host.conn.rxBuffer

/-- A segment of the stream arrives, at a time, or the user reads. -/
inductive Event
  | deliver (pos len : ℕ) (header : TcpHeader) (now : UInt64) (random : UInt32)
  | recv (len : ℕ)

def segmentData (stream : List (BitVec 8)) (pos len : ℕ) : List (BitVec 8) :=
  (stream.drop pos).take len

/-- A segment has the sequence number of its place in the stream, which starts at `isn`. -/
def Receiver.step (algorithm : Congestion Cc) (stream : List (BitVec 8)) (isn : UInt32)
    (r : Receiver Cc) : Event → Receiver Cc
  | .deliver pos len header now random =>
    { r with
      host := after
        (onPacket algorithm { header with seqNum := isn + UInt32.ofNat pos }
          (segmentData stream pos len))
        { r.host with now, random } }
  | .recv len =>
    match Tcp.recv len r.host with
    | .ok bytes host => ⟨host, r.returned ++ bytes⟩
    | .error _ host => ⟨host, r.returned⟩

/-- A segment with data that an established connection gets starts where the bytes received so
far end. -/
def Receiver.InOrder (stream : List (BitVec 8)) (r : Receiver Cc) : Event → Prop
  | .deliver pos len _ _ _ =>
    r.host.conn.state = .established → segmentData stream pos len ≠ [] → pos = r.received.length
  | .recv _ => True

instance (stream : List (BitVec 8)) (r : Receiver Cc) : ∀ event, Decidable (r.InOrder stream event)
  | .deliver _ _ _ _ _ => inferInstanceAs (Decidable (_ → _ → _))
  | .recv _ => inferInstanceAs (Decidable True)

theorem append_segmentData_prefix {stream got : List (BitVec 8)} (h : got <+: stream) (len : ℕ) :
    got ++ segmentData stream got.length len <+: stream := by
  obtain ⟨rest, rfl⟩ := h
  refine ⟨rest.drop len, ?_⟩
  rw [segmentData, List.drop_left, List.append_assoc, List.take_append_drop]

theorem recv_cases (len : ℕ) (host : Host Cc) :
    (∃ e, Tcp.recv len host = .error e host) ∨
      Tcp.recv len host = .ok (host.conn.rxBuffer.take len)
        { host with conn := { host.conn with rxBuffer := host.conn.rxBuffer.drop len } } := by
  have hunfold : Tcp.recv len host =
      (if host.conn.rxBuffer.isEmpty then
        if host.conn.state = .closeWait ∨ host.conn.state = .closed then throw .connectionClosed
        else throw .wouldBlock
      else do
        modifyConn fun conn => { conn with rxBuffer := conn.rxBuffer.drop len }
        pure (host.conn.rxBuffer.take len) : Call Cc (List (BitVec 8))) host := rfl
  rw [hunfold]
  split_ifs
  · exact .inl ⟨_, rfl⟩
  · exact .inl ⟨_, rfl⟩
  · exact .inr rfl

section

variable (algorithm : Congestion Cc) (stream : List (BitVec 8)) (isn : UInt32) (r : Receiver Cc)
include algorithm stream isn r

theorem received_recv (len : ℕ) :
    (r.step algorithm stream isn (.recv len)).received = r.received := by
  rcases recv_cases len r.host with ⟨e, hfails⟩ | hreads
  · simp only [Receiver.step, hfails]
  · simp only [Receiver.step, hreads]
    show (r.returned ++ _) ++ _ = r.returned ++ _
    rw [List.append_assoc, List.take_append_drop]

theorem step_prefix (event : Event) (h : r.received <+: stream) (horder : r.InOrder stream event) :
    (r.step algorithm stream isn event).received <+: stream := by
  cases event with
  | recv len =>
    rw [received_recv]
    exact h
  | deliver pos len header now random =>
    show r.returned ++ (after (onPacket _ _ _) _).conn.rxBuffer <+: stream
    rcases rxBuffer_onPacket algorithm { header with seqNum := isn + UInt32.ofNat pos }
      (segmentData stream pos len) { r.host with now, random } with hkeep | ⟨hstate, happend⟩
    · rw [hkeep]
      exact h
    · rw [happend]
      by_cases hempty : segmentData stream pos len = []
      · rw [hempty, List.append_nil]
        exact h
      · have hpos : pos = r.received.length := horder hstate hempty
        rw [← List.append_assoc, hpos]
        exact append_segmentData_prefix h len

end

/-- In every run whose segments with data arrive in order, what was received is at every moment
the start of the peer's stream. -/
theorem received_prefix (algorithm : Congestion Cc) (stream : List (BitVec 8)) (isn : UInt32)
    (r : Receiver Cc) (hstart : r.received = []) (events : List Event)
    (horder : Run.Along (Receiver.step algorithm stream isn) (Receiver.InOrder stream) r events) :
    (Run.exec (Receiver.step algorithm stream isn) r events).received <+: stream := by
  have hkeep : ∀ (r : Receiver Cc) (event : Event), r.received <+: stream →
      r.InOrder stream event → (r.step algorithm stream isn event).received <+: stream :=
    fun r event h horder => step_prefix algorithm stream isn r event h horder
  refine Run.Along.invariant (I := fun r => r.received <+: stream) hkeep ?_ horder
  rw [hstart]
  exact List.nil_prefix

/-- An established connection between two IPv4 hosts over a network that takes every packet. -/
def openHost : Host Unit where
  conn :=
    { family := .ipv4, localAddr := ⟨.v4 ⟨0x0A000001⟩, 80⟩, remote := ⟨.v4 ⟨0x0A000002⟩, 4000⟩
      state := .established, seqNum := 100, ackNum := 1000, windowSize := 65535, rxBuffer := []
      txBuffer := [], cwnd := 10, ssthresh := 65535, rtt := 100, peerWsScale := 0
      sackPermitted := false, fastRetx := ⟨0, 0, 0, false, 3⟩, sndUna := 100, sndNxt := 100
      cc := (), timeWaitStart := 0, keepaliveLastPing := 0, keepaliveProbeCount := 0, mss := 536
      synRetransmitCount := 0 }
  sent := []
  packets := 0
  refuses _ := none
  now := 0
  random := 0

def noCongestion : Congestion Unit :=
  ⟨fun _ _ => (), fun _ _ _ _ => (), fun _ => 10, fun _ => 65535⟩

def dataHeader : TcpHeader := ⟨4000, 80, 0, 100, 5, .ackOnly, 65535, 0, 0⟩

/-- Two segments in order, with a read between them. -/
theorem received_prefix_inOrder :
    let events := [.deliver 0 2 dataHeader 1 0, .recv 1, .deliver 2 3 dataHeader 2 0]
    let stream : List (BitVec 8) := [1, 2, 3, 4, 5, 6]
    (Run.exec (Receiver.step noCongestion stream 1000) ⟨openHost, []⟩ events).received =
        [1, 2, 3, 4, 5] ∧
      (Run.exec (Receiver.step noCongestion stream 1000) ⟨openHost, []⟩ events).received <+:
        stream := by
  intro events stream
  have horder : Run.Along (Receiver.step noCongestion stream 1000) (Receiver.InOrder stream)
      ⟨openHost, []⟩ events := by decide +kernel
  exact ⟨by decide +kernel,
    received_prefix noCongestion stream 1000 ⟨openHost, []⟩ rfl events horder⟩

/-- The second byte of the stream arrives first, and again: it is put first, and twice. -/
theorem received_out_of_order :
    let stream : List (BitVec 8) := [1, 2]
    let r := Run.exec (Receiver.step noCongestion stream 1000) ⟨openHost, []⟩
      [.deliver 1 1 dataHeader 1 0, .deliver 1 1 dataHeader 2 0]
    openHost.conn.state = .established ∧ r.received = [2, 2] ∧ ¬r.received <+: stream := by
  decide +kernel

end EchOS.Net.Tcp
