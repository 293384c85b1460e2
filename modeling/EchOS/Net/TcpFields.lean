import EchOS.Net.TcpStream

/-! What a connection makes of the options and of the numbers of an incoming segment. -/

namespace EchOS.Net.Tcp

open Effect List

variable {Cc : Type} {header : TcpHeader}

section Options

/-- What two ends agree on when they connect: the segment size, the scale of the window and whether
selective acknowledgements may be sent. -/
def TcpConnection.terms (conn : TcpConnection Cc) : UInt16 × UInt8 × Bool :=
  (conn.mss, conn.peerWsScale, conn.sackPermitted)

def TcpConnection.negotiated (conn : TcpConnection Cc) (announced : TcpOptions) :
    UInt16 × UInt8 × Bool :=
  (match announced.mss with
    | some mss => if mss = 0 then conn.mss else min mss conn.mss
    | none => conn.mss,
    announced.windowScale.getD conn.peerWsScale, announced.sackPermitted || conn.sackPermitted)

theorem parseLoop_replicate (rounds n : ℕ) :
    TcpOptions.parseLoop rounds {} (replicate n 0) = {} := by
  cases rounds <;> cases n <;> rfl

/-- The header written out again ends in zeros, of which the first ends the options. -/
theorem ownOptions_eq (h : 5 ≤ header.dataOffset.toNat) (host : Host Cc) :
    ownOptions header host = .ok {} host := by
  have hlen : 20 ≤ header.headerLen := Nat.mul_le_mul_right 4 h
  have hroom : ¬header.headerLen < TcpHeader.minSize := Nat.not_lt.mpr hlen
  unfold ownOptions TcpHeader.serialize
  rw [length_replicate, if_neg hroom]
  dsimp only
  generalize hfixed : Disk.toBe 2 header.srcPort.toNat ++ _ ++ _ ++ _ ++ _ ++ _ ++ _ ++ _ = fixed
  have htwenty : fixed.length = 20 := by
    rw [← hfixed]
    simp
  have hlength : (Disk.patch (replicate header.headerLen 0) 0 fixed).length = _ :=
    Disk.length_patch length_replicate (by omega)
  unfold TcpOptions.parse
  split_ifs
  · rfl
  · dsimp only
    rw [take_of_length_le (by omega), Disk.drop_patch (by simp; omega) (by omega), drop_replicate,
      parseLoop_replicate]
    rfl

theorem after_onPacket (algorithm : Congestion Cc) (data : List (BitVec 8)) (host : Host Cc)
    (hrst : header.flags.rst = false) (hoffset : 5 ≤ header.dataOffset.toNat) :
    after (onPacket algorithm header data) host =
      after (onState algorithm header data {}) (after (noteAck header) host) := by
  have hnote : noteAck header host = .ok () (after (noteAck header) host) := rfl
  unfold onPacket
  rw [if_neg (by simp [hrst]), Effect.after, bind_ok hnote, bind_ok (ownOptions_eq hoffset _)]
  rfl

/-! ### The options of a packet -/

/-- An option as a peer encodes it. -/
inductive TcpOption
  | nop
  | mss (value : UInt16)
  | windowScale (shift : UInt8)
  | sackPermitted
  | other (kind : BitVec 8) (data : List (BitVec 8)) (hkind : 4 < kind.toNat)
    (hlength : data.length + 2 < 256)

namespace TcpOption

/-- The length counts the kind and itself. -/
def tlv (kind : BitVec 8) (data : List (BitVec 8)) : List (BitVec 8) :=
  kind :: BitVec.ofNat 8 (data.length + 2) :: data

def bytes : TcpOption → List (BitVec 8)
  | .nop => [1]
  | .mss value => tlv 2 (Disk.toBe 2 value.toNat)
  | .windowScale shift => tlv 3 [shift.toBitVec]
  | .sackPermitted => tlv 4 []
  | .other kind data _ _ => tlv kind data

/-- An option that is given twice counts as it is given last. -/
def announce (options : TcpOptions) : TcpOption → TcpOptions
  | .mss value => { options with mss := some value }
  | .windowScale shift => { options with windowScale := some shift }
  | .sackPermitted => { options with sackPermitted := true }
  | .nop | .other .. => options

def announced (opts : List TcpOption) : TcpOptions := opts.foldl announce {}

theorem length_bytes_pos (option : TcpOption) : 0 < option.bytes.length := by
  cases option <;> exact Nat.succ_pos _

section Loop

variable (rounds : ℕ) (options : TcpOptions) (rest : List (BitVec 8))

theorem parseLoop_tlv {kind : BitVec 8} {data : List (BitVec 8)} (hkind : 1 < kind.toNat)
    (hlength : data.length + 2 < 256) :
    TcpOptions.parseLoop (rounds + 1) options (tlv kind data ++ rest) =
      TcpOptions.parseLoop rounds (options.readOption kind (tlv kind data)) rest := by
  have hend : kind ≠ 0 := by
    rintro rfl
    exact absurd hkind (by decide)
  have hnop : kind ≠ 1 := by
    rintro rfl
    exact absurd hkind (by decide)
  have hlen : (BitVec.ofNat 8 (data.length + 2)).toNat = data.length + 2 :=
    Nat.mod_eq_of_lt hlength
  have hroom : ¬(data.length + 2 < 2 ∨
      (BitVec.ofNat 8 (data.length + 2) :: (data ++ rest)).length + 1 < data.length + 2) := by
    simp only [length_cons, length_append]
    omega
  change TcpOptions.parseLoop _ _ (kind :: BitVec.ofNat 8 (data.length + 2) :: (data ++ rest)) = _
  rw [TcpOptions.parseLoop, if_neg hend, if_neg hnop, hlen, if_neg hroom, take_succ_cons,
    take_succ_cons, take_left, drop_succ_cons, drop_succ_cons, drop_left]
  rfl

theorem parseLoop_bytes (option : TcpOption) :
    TcpOptions.parseLoop (rounds + 1) options (option.bytes ++ rest) =
      TcpOptions.parseLoop rounds (option.announce options) rest := by
  cases option with
  | nop => rfl
  | mss value =>
    have hvalue : Disk.ofBe (Disk.toBe 2 value.toNat) = value.toNat := by
      have hlt := value.toNat_lt
      simp [Disk.ofBe, Disk.toBe, range_succ]
      omega
    rw [bytes, parseLoop_tlv _ _ _ (by decide) (by simp)]
    simp [TcpOptions.readOption, tlv, take_of_length_le, hvalue, announce]
  | windowScale shift =>
    rw [bytes, parseLoop_tlv _ _ _ (by decide) (by simp)]
    simp [TcpOptions.readOption, tlv, announce]
  | sackPermitted => exact parseLoop_tlv _ _ _ (by decide) (by decide)
  | other kind data hkind hlength =>
    have hother (v : BitVec 8) (hv : v.toNat ≤ 4) : kind ≠ v := by
      rintro rfl
      omega
    rw [bytes, parseLoop_tlv _ _ _ (by omega) hlength, TcpOptions.readOption,
      if_neg (hother 2 (by decide)), if_neg (hother 3 (by decide)), if_neg (hother 4 (by decide))]
    rfl

end Loop

theorem parseLoop_encoded {opts : List TcpOption} {padding : List (BitVec 8)}
    (hpadding : padding.getD 0 0 = 0) {rounds : ℕ} (options : TcpOptions)
    (hrounds : (opts.flatMap bytes ++ padding).length ≤ rounds) :
    TcpOptions.parseLoop rounds options (opts.flatMap bytes ++ padding) =
      opts.foldl announce options := by
  induction opts generalizing rounds options with
  | nil =>
    cases rounds with
    | zero => rfl
    | succ rounds =>
      cases padding with
      | nil => rfl
      | cons kind rest => exact if_pos hpadding
  | cons option opts ih =>
    have hpos := option.length_bytes_pos
    rw [flatMap_cons, append_assoc, length_append] at hrounds
    obtain ⟨rounds, rfl⟩ : ∃ r, rounds = r + 1 := ⟨rounds - 1, by omega⟩
    rw [flatMap_cons, append_assoc, parseLoop_bytes]
    exact ih _ (by omega)

end TcpOption

open TcpOption

theorem five_le_dataOffset {packet : List (BitVec 8)} (h : TcpHeader.parse packet = .ok header) :
    5 ≤ header.dataOffset.toNat := by
  unfold TcpHeader.parse at h
  split_ifs at h with hshort
  dsimp only at h
  split_ifs at h with hoffset
  cases h
  exact Nat.not_lt.mp hoffset

theorem parse_encoded {packet padding : List (BitVec 8)} {opts : List TcpOption}
    (hoptions : (packet.take header.headerLen).drop 20 = opts.flatMap bytes ++ padding)
    (hpadding : padding.getD 0 0 = 0) :
    TcpOptions.parse packet header.headerLen = announced opts := by
  have hloop := parseLoop_encoded hpadding {} (Nat.le_refl (opts.flatMap bytes ++ padding).length)
  rw [← hoptions] at hloop
  unfold TcpOptions.parse
  split_ifs with hnone
  · rw [drop_eq_nil_of_le (by rw [length_take]; omega)] at hloop
    exact hloop
  · exact hloop

/-- The options that a peer announces are read as it gives them, and never reach the connection. -/
theorem negotiates_iff (algorithm : Congestion Cc) (host : Host Cc) (packet : List (BitVec 8))
    (header : TcpHeader) (hheader : TcpHeader.parse packet = .ok header) (opts : List TcpOption)
    (padding : List (BitVec 8))
    (hoptions : (packet.take header.headerLen).drop 20 = opts.flatMap bytes ++ padding)
    (hpadding : padding.getD 0 0 = 0) (hstate : host.conn.state = .synSent)
    (hsynAck : (header.flags.syn && header.flags.ack) = true) (hrst : header.flags.rst = false) :
    let terms := host.conn.negotiated (announced opts)
    TcpOptions.parse packet header.headerLen = announced opts ∧
      ((after (onPacket algorithm header (packet.drop header.headerLen)) host).conn.terms = terms ↔
        terms = host.conn.terms) := by
  have hterms (data : List (BitVec 8)) :
      (after (onPacket algorithm header data) host).conn.terms = host.conn.terms := by
    rw [after_onPacket algorithm data host hrst (five_le_dataOffset hheader), onState,
      after_get_bind, (after_noteAck header host).2, hstate]
    dsimp only
    unfold onSynSent
    rw [if_pos hsynAck]
    refine (congrArg TcpConnection.terms (conn_sendPacket .ackOnly [] _)).trans ?_
    show (ite _ _ _ : TcpConnection Cc).terms = _
    split_ifs
    · rfl
    · rfl
  intro terms
  rw [hterms]
  exact ⟨parse_encoded hoptions hpadding, eq_comm⟩

def synAckHeader (dataOffset : UInt8) : TcpHeader :=
  ⟨80, 4000, 7, 101, dataOffset, .synAck, 65535, 0, 0⟩

def synAckPacket (dataOffset : UInt8) (opts : List TcpOption) : List (BitVec 8) :=
  let fixed : List (BitVec 8) := [0, 80, 15, 160, 0, 0, 0, 7, 0, 0, 0, 101,
    (dataOffset <<< 4).toBitVec, 18, 255, 255, 0, 0, 0, 0]
  fixed ++ opts.flatMap bytes

def synSentHost : Host Unit := { openHost with conn := { openHost.conn with state := .synSent } }

/-- Options that leave the terms as they are. -/
theorem negotiates_same_terms :
    (after (onPacket noCongestion (synAckHeader 7) []) synSentHost).conn.terms =
      synSentHost.conn.negotiated (announced [.mss 1460, .nop, .windowScale 0]) :=
  (negotiates_iff noCongestion synSentHost (synAckPacket 7 [.mss 1460, .nop, .windowScale 0])
    (synAckHeader 7) (by decide +kernel) [.mss 1460, .nop, .windowScale 0] []
    (by decide +kernel) rfl rfl rfl rfl).2.mpr (by decide +kernel)

/-- The peer takes segments of at most 200 bytes, and the connection keeps to longer ones. -/
theorem small_segments_ignored :
    TcpHeader.parse (synAckPacket 6 [.mss 200]) = .ok (synAckHeader 6) ∧
      (synSentHost.conn.negotiated (announced [.mss 200])).1 = 200 ∧
      (after (onPacket noCongestion (synAckHeader 6) []) synSentHost).conn.mss = 536 := by
  decide +kernel

end Options

section Acknowledgements

/-- A segment with data and an acknowledgement, and when it arrives. -/
structure DataSegment where
  header : TcpHeader
  data : List (BitVec 8)
  now : UInt64
  ack : header.flags.ack = true
  rst : header.flags.rst = false
  fin : header.flags.fin = false
  offset : 5 ≤ header.dataOffset.toNat
  nonempty : data ≠ []

variable (algorithm : Congestion Cc)

def deliver (host : Host Cc) (segment : DataSegment) : Host Cc :=
  after (onPacket algorithm segment.header segment.data) { host with now := segment.now }

/-- The acknowledgements sent for a segment name the byte that follows its data. -/
def AcksNext (host : Host Cc) (segment : DataSegment) : Prop :=
  ∀ a ∈ (deliver algorithm host segment).acks.drop host.acks.length,
    a = segment.header.seqNum + UInt32.ofNat segment.data.length

/-- The network layer takes the packet that follows `i` others. -/
def Host.Takes (host : Host Cc) (i : ℕ) : Prop :=
  match host.conn.localAddr.ip, host.conn.remote.ip with
  | .v4 _, .v4 _ | .v6 _, .v6 _ => host.refuses (host.packets + i) = none
  | _, _ => False

def TcpConnection.resends (conn : TcpConnection Cc) (ack : UInt32) : Bool :=
  (conn.fastRetx.onAck ack conn.sndUna).1 && !conn.txBuffer.isEmpty

/-- The acknowledgement goes out, behind the segment that is sent again if there is one. -/
def Answers (header : TcpHeader) (host : Host Cc) : Prop :=
  host.Takes 0 ∧ (host.conn.resends header.ackNum = true → host.Takes 1)

/-- An acknowledgement of as many bytes is sent exactly if the host before meets the condition. -/
def Acks (n : UInt32) (P : Host Cc → Prop) (host host' : Host Cc) : Prop :=
  host'.conn.state = host.conn.state ∧
    ((P host ∧ host'.acks = host.acks ++ [host.conn.ackNum + n]) ∨
      (¬P host ∧ host'.acks = host.acks))

variable {n : UInt32} {P Q : Host Cc → Prop} {a b c : Host Cc}

theorem Acks.pass_left (hab : Passes a b) (hP : Q b ↔ P a) (hbc : Acks n Q b c) :
    Acks n P a c := by
  simp only [Passes, Host.view, Prod.mk.injEq] at hab
  rwa [Acks, ← hab.2.1, ← hab.2.2.1, ← hab.2.2.2, ← hP]

theorem Acks.pass_right (hab : Acks n P a b) (hbc : Passes b c) : Acks n P a c := by
  simp only [Passes, Host.view, Prod.mk.injEq] at hbc
  rwa [Acks, hbc.2.2.1, hbc.2.2.2]

theorem sendPacket_cases (flags : TcpFlags) (data : List (BitVec 8)) (host : Host Cc) :
    (host.Takes 0 ∧ sendPacket flags data host = .ok () { host with
      packets := host.packets + 1, sent := host.sent ++ [host.conn.segment flags data] }) ∨
    (¬host.Takes 0 ∧ ∃ e host', sendPacket flags data host = .error e host' ∧
      host'.sent = host.sent) := by
  unfold sendPacket Host.Takes
  cases host.conn.localAddr.ip <;> cases host.conn.remote.ip <;>
    cases host.refuses host.packets <;> simp

theorem acks_receiveData {data : List (BitVec 8)} (hsome : data ≠ []) :
    Relates (Acks (UInt32.ofNat data.length) (·.Takes 0)) (receiveData data : Call Cc Unit) := by
  unfold receiveData
  rw [if_pos (by simpa using hsome)]
  intro host
  show Acks _ _ host (Effect.after (sendPacket .ackOnly []) { host with conn := _ })
  refine ⟨by rw [conn_sendPacket], ?_⟩
  generalize hmore : { host with conn := _ } = more
  obtain ⟨htakes, h⟩ | ⟨hnot, e, host', h, hsent⟩ := sendPacket_cases .ackOnly [] more
  · rw [after_eq h]
    subst hmore
    exact .inl ⟨htakes, by simp [Host.acks, TcpConnection.segment]⟩
  · rw [Effect.after, h]
    subst hmore
    exact .inr ⟨hnot, by simp [Host.acks, hsent]⟩

theorem fastRetransmit_eq (header : TcpHeader) (host : Host Cc) :
    ∃ host', fastRetransmit algorithm header host = (if host.conn.resends header.ackNum then
        sendPacket .ackOnly host.conn.txBuffer else pure ()) host' ∧
      ∀ i, host'.Takes i ↔ host.Takes i := by
  let detected := host.conn.fastRetx.onAck header.ackNum host.conn.sndUna
  let cc := algorithm.onLoss host.conn.cc host.now
  let conn := { host.conn with fastRetx := detected.2 }
  have hresends : host.conn.resends header.ackNum =
    (detected.1 && !host.conn.txBuffer.isEmpty) := rfl
  rw [hresends]
  cases hdetected : detected.1 with
  | false =>
    have hnot := ne_true_of_eq_false hdetected
    exact ⟨{ host with conn }, congrFun (if_neg hnot) _, fun _ => .rfl⟩
  | true =>
    refine ⟨{ host with conn := { conn with
      cc, cwnd := algorithm.cwnd cc, ssthresh := algorithm.ssthresh cc } }, ?_, fun _ => .rfl⟩
    exact congrFun (if_pos hdetected) _

theorem advanceUna_eq (header : TcpHeader) (host : Host Cc) :
    ∃ host', advanceUna algorithm header host = .ok () host' ∧
      ∀ i, host'.Takes i ↔ host.Takes i := by
  refine ⟨_, rfl, fun i => ?_⟩
  dsimp only
  split_ifs
  · rfl
  · rfl

/-- The acknowledgement of a segment follows what is sent again for it. -/
theorem processAck_cases (hack : header.flags.ack = true) (host : Host Cc) :
    (∃ host', processAck algorithm header host = .ok () host' ∧
      (host'.Takes 0 ↔ Answers header host)) ∨
    ((∀ a host', processAck algorithm header host ≠ .ok a host') ∧ ¬Answers header host) := by
  obtain ⟨host₁, hfast, htakes⟩ := fastRetransmit_eq algorithm header host
  unfold processAck Answers
  rw [if_pos hack, ← htakes, ← htakes]
  cases hresends : host.conn.resends header.ackNum with
  | false =>
    rw [hresends] at hfast
    obtain ⟨host₂, hnext, hsame⟩ := advanceUna_eq algorithm header host₁
    refine .inl ⟨host₂, (bind_ok hfast).trans hnext, ?_⟩
    rw [hsame]
    exact ⟨fun h => ⟨h, nofun⟩, And.left⟩
  | true =>
    rw [hresends] at hfast
    obtain ⟨hfirst, hsend⟩ | ⟨hnot, e, host', hsend, -⟩ :=
      sendPacket_cases .ackOnly host.conn.txBuffer host₁
    · obtain ⟨host₂, hnext, hsame⟩ := advanceUna_eq algorithm header { host₁ with
        packets := host₁.packets + 1
        sent := host₁.sent ++ [host₁.conn.segment .ackOnly host.conn.txBuffer] }
      refine .inl ⟨host₂, (bind_ok (hfast.trans hsend)).trans hnext, ?_⟩
      rw [hsame]
      exact ⟨fun h => ⟨hfirst, fun _ => h⟩, fun h => h.2 rfl⟩
    · refine .inr ⟨fun a host₂ hok => ?_, fun h => hnot h.1⟩
      rw [bind_error (hfast.trans hsend)] at hok
      cases hok

theorem acks_onEstablished {data : List (BitVec 8)} (hsome : data ≠ [])
    (hack : header.flags.ack = true) (hfin : header.flags.fin = false) :
    Relates (Acks (UInt32.ofNat data.length) (Answers header))
      (onEstablished algorithm header data) := by
  intro host
  have hpass := passes_processAck algorithm header host
  obtain ⟨host₁, hok, htakes⟩ | ⟨hfail, hnot⟩ := processAck_cases algorithm hack host
  · rw [after_eq hok] at hpass
    rw [onEstablished, Effect.after, bind_ok hok]
    refine Acks.pass_left (Q := (·.Takes 0)) hpass htakes ?_
    refine Relates.comp (S := Passes) (fun _ _ h => h) (fun _ _ _ => .pass_right)
      (acks_receiveData hsome) (fun _ => ?_) host₁
    rw [receiveFin, hfin]
    exact passes_refuseAck header data
  · rw [onEstablished, after_bind_error _ hfail]
    exact Acks.pass_right ⟨rfl, .inr ⟨hnot, rfl⟩⟩ hpass

theorem acks_deliver {host : Host Cc} (hstate : host.conn.state = .established)
    (segment : DataSegment) :
    Acks (UInt32.ofNat segment.data.length) (Answers segment.header)
      { host with conn := { host.conn with ackNum := segment.header.ackNum } }
      (deliver algorithm host segment) := by
  have hnote : Effect.after (noteAck segment.header) { host with now := segment.now } =
      { host with
        now := segment.now, conn := { host.conn with ackNum := segment.header.ackNum } } := by
    show ({ host with now := segment.now, conn := ite _ _ _ } : Host Cc) = _
    rw [if_pos segment.ack]
  rw [deliver, after_onPacket _ _ _ segment.rst segment.offset, hnote, onState, after_get_bind]
  dsimp only
  rw [hstate]
  exact acks_onEstablished algorithm segment.nonempty segment.ack segment.fin _

theorem acksNext_iff (algorithm : Congestion Cc) (host : Host Cc) (segments : List DataSegment)
    (hstate : host.conn.state = .established) :
    Run.Along (deliver algorithm) (AcksNext algorithm) host segments ↔
      Run.Along (deliver algorithm) (fun host segment => Answers segment.header host →
        segment.header.ackNum = segment.header.seqNum) host segments := by
  have hiff (host : Host Cc) (segment : DataSegment) (hstate : host.conn.state = .established) :
      AcksNext algorithm host segment ↔
        (Answers segment.header host → segment.header.ackNum = segment.header.seqNum) := by
    unfold AcksNext
    obtain ⟨-, ⟨hanswers, hone⟩ | ⟨hnot, hnone⟩⟩ := acks_deliver algorithm hstate segment
    · change Answers segment.header host at hanswers
      change _ = host.acks ++ _ at hone
      simp [hone, hanswers]
    · change ¬Answers segment.header host at hnot
      change (deliver algorithm host segment).acks = host.acks at hnone
      simp [hnone, hnot]
  refine Run.along_congr (fun host segment hstate _ => ?_) hiff hstate segments
  exact (acks_deliver algorithm hstate segment).1.trans hstate

def twoBytes (seqNum : UInt32) : DataSegment :=
  ⟨{ dataHeader with seqNum }, [1, 2], 1, rfl, rfl, rfl, Nat.le_refl 5, by decide⟩

theorem acksNext_same_number :
    Run.Along (deliver noCongestion) (AcksNext noCongestion) openHost [twoBytes 100] :=
  (acksNext_iff noCongestion openHost _ rfl).mpr ⟨fun _ => rfl, trivial⟩

/-- Bytes 1000 and 1001 arrive in order and are answered with an acknowledgement up to 102. -/
theorem acks_own_numbers :
    openHost.conn.ackNum = 1000 ∧
      ¬Run.Along (deliver noCongestion) (AcksNext noCongestion) openHost [twoBytes 1000] :=
  ⟨rfl, fun h => absurd (h.1 102 (by decide +kernel)) (by decide)⟩

end Acknowledgements

end EchOS.Net.Tcp
