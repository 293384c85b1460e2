import EchOS.Lib.Effect
import EchOS.Net.Reassembly

/-! TCP connections of `net/tcp.rs`: what an incoming segment does in each state, and `recv`.
Checksums of outgoing packets and statistics counters are left out. -/

namespace EchOS.Net

inductive NetError
  | noInterface | notUp | bufferFull | bufferEmpty | invalidPacket | invalidFd | invalidParam
  | invalidArg | checksumError | timeout | connectionRefused | connectionReset | connectionClosed
  | wouldBlock | addrInUse | addrNotAvailable | networkUnreachable | hostUnreachable
  | protocolError | notSupported | notConnected | unknown
  deriving DecidableEq

inductive IpAddr
  | v4 (addr : Ipv4Addr)
  | v6 (addr : BitVec 128)
  deriving DecidableEq

inductive AddressFamily
  | ipv4 | ipv6
  deriving DecidableEq

structure SocketAddr where
  ip : IpAddr
  port : UInt16
  deriving DecidableEq

namespace Tcp

inductive TcpState
  | closed | listen | synSent | synReceived | established | finWait1 | finWait2 | closeWait
  | closing | lastAck | timeWait
  deriving DecidableEq

structure TcpFlags where
  fin : Bool := false
  syn : Bool := false
  rst : Bool := false
  psh : Bool := false
  ack : Bool := false
  urg : Bool := false
  cwr : Bool := false
  ece : Bool := false
  deriving DecidableEq

namespace TcpFlags

def synAck : TcpFlags := { syn := true, ack := true }
def ackOnly : TcpFlags := { ack := true }
def rstOnly : TcpFlags := { rst := true }

def toU8 (flags : TcpFlags) : UInt8 :=
  (if flags.fin then 0x01 else 0) ||| (if flags.syn then 0x02 else 0) |||
    (if flags.rst then 0x04 else 0) ||| (if flags.psh then 0x08 else 0) |||
    (if flags.ack then 0x10 else 0) ||| (if flags.urg then 0x20 else 0) |||
    (if flags.cwr then 0x80 else 0) ||| (if flags.ece then 0x40 else 0)

def fromU8 (val : UInt8) : TcpFlags where
  fin := val &&& 0x01 ≠ 0
  syn := val &&& 0x02 ≠ 0
  rst := val &&& 0x04 ≠ 0
  psh := val &&& 0x08 ≠ 0
  ack := val &&& 0x10 ≠ 0
  urg := val &&& 0x20 ≠ 0
  ece := val &&& 0x40 ≠ 0
  cwr := val &&& 0x80 ≠ 0

end TcpFlags

structure TcpHeader where
  srcPort : UInt16
  dstPort : UInt16
  seqNum : UInt32
  ackNum : UInt32
  dataOffset : UInt8
  flags : TcpFlags
  windowSize : UInt16
  checksum : UInt16
  urgentPtr : UInt16
  deriving DecidableEq

namespace TcpHeader

def minSize : ℕ := 20

def headerLen (header : TcpHeader) : ℕ := header.dataOffset.toNat * 4

def parse (data : List (BitVec 8)) : Except NetError TcpHeader :=
  if data.length < minSize then .error .invalidPacket
  else
    let field (offset n : ℕ) := Disk.ofBe ((data.drop offset).take n)
    let dataOffset := UInt8.ofNat (field 12 1) >>> 4 &&& 0x0F
    if dataOffset < 5 then .error .invalidPacket
    else if data.length < dataOffset.toNat * 4 then .error .invalidPacket
    else .ok {
      srcPort := .ofNat (field 0 2)
      dstPort := .ofNat (field 2 2)
      seqNum := .ofNat (field 4 4)
      ackNum := .ofNat (field 8 4)
      dataOffset
      flags := .fromU8 (.ofNat (field 13 1))
      windowSize := .ofNat (field 14 2)
      checksum := .ofNat (field 16 2)
      urgentPtr := .ofNat (field 18 2) }

/-- The fixed part of the header over the start of a buffer; what follows in the buffer stays. -/
def serialize (header : TcpHeader) (buf : List (BitVec 8)) : Except NetError (List (BitVec 8)) :=
  if buf.length < minSize then .error .bufferFull
  else
    .ok (Disk.patch buf 0
      (Disk.toBe 2 header.srcPort.toNat ++ Disk.toBe 2 header.dstPort.toNat ++
        Disk.toBe 4 header.seqNum.toNat ++ Disk.toBe 4 header.ackNum.toNat ++
        [(header.dataOffset <<< 4).toBitVec, header.flags.toU8.toBitVec] ++
        Disk.toBe 2 header.windowSize.toNat ++ Disk.toBe 2 header.checksum.toNat ++
        Disk.toBe 2 header.urgentPtr.toNat))

end TcpHeader

structure TcpOptions where
  mss : Option UInt16 := none
  windowScale : Option UInt8 := none
  sackPermitted : Bool := false
  deriving DecidableEq

namespace TcpOptions

def readOption (options : TcpOptions) (kind : BitVec 8) (data : List (BitVec 8)) : TcpOptions :=
  if kind = 2 then
    if 4 ≤ data.length then
      { options with mss := some (UInt16.ofNat (Disk.ofBe ((data.drop 2).take 2))) }
    else options
  else if kind = 3 then
    if data.length < 3 then options
    else { options with windowScale := some (UInt8.ofNat (data.getD 2 0).toNat) }
  else if kind = 4 then { options with sackPermitted := true }
  else options

/-- The loop over the options. Every round takes a byte at least, so the number of bytes bounds
the rounds. -/
def parseLoop : ℕ → TcpOptions → List (BitVec 8) → TcpOptions
  | 0, options, _ => options
  | _ + 1, options, [] => options
  | rounds + 1, options, kind :: rest =>
    if kind = 0 then options
    else if kind = 1 then parseLoop rounds options rest
    else
      match rest with
      | [] => options
      | len :: _ =>
        if len.toNat < 2 ∨ rest.length + 1 < len.toNat then options
        else
          parseLoop rounds (options.readOption kind ((kind :: rest).take len.toNat))
            ((kind :: rest).drop len.toNat)

def parse (headerData : List (BitVec 8)) (headerLen : ℕ) : TcpOptions :=
  if headerLen ≤ 20 then {}
  else
    let optsData := (headerData.take headerLen).drop 20
    parseLoop optsData.length {} optsData

end TcpOptions

structure FastRetransmitState where
  dupAckCount : UInt32
  lastAck : UInt32
  recover : UInt32
  inRecovery : Bool
  threshold : UInt32
  deriving DecidableEq

/-- The blocks of a selective acknowledgement are passed too but do not count. -/
def FastRetransmitState.onAck (state : FastRetransmitState) (ack sndUna : UInt32) :
    Bool × FastRetransmitState :=
  if ack = state.lastAck ∧ ack ≠ sndUna then
    let state := { state with dupAckCount := state.dupAckCount + 1 }
    if state.threshold ≤ state.dupAckCount ∧ !state.inRecovery then
      (true, { state with inRecovery := true, recover := sndUna })
    else (false, state)
  else if state.lastAck < ack then
    (false, { state with
      dupAckCount := 0
      lastAck := ack
      inRecovery := state.inRecovery && !decide (state.recover ≤ ack) })
  else (false, state)

/-- A congestion control algorithm: they compute in floating point and count for the windows
only. -/
structure Congestion (Cc : Type) where
  onLoss : Cc → UInt64 → Cc
  onAck : Cc → UInt32 → UInt64 → UInt32 → Cc
  cwnd : Cc → UInt32
  ssthresh : Cc → UInt32

structure TcpConnection (Cc : Type) where
  family : AddressFamily
  localAddr : SocketAddr
  remote : SocketAddr
  state : TcpState
  seqNum : UInt32
  ackNum : UInt32
  windowSize : UInt16
  rxBuffer : List (BitVec 8)
  txBuffer : List (BitVec 8)
  cwnd : UInt32
  ssthresh : UInt32
  rtt : UInt32
  peerWsScale : UInt8
  sackPermitted : Bool
  fastRetx : FastRetransmitState
  sndUna : UInt32
  sndNxt : UInt32
  cc : Cc
  timeWaitStart : UInt64
  keepaliveLastPing : UInt64
  keepaliveProbeCount : UInt32
  mss : UInt16
  synRetransmitCount : UInt8

/-- A segment handed to the network layer, before its checksum is put in. -/
structure TcpSegment where
  header : TcpHeader
  options : List (BitVec 8)
  data : List (BitVec 8)
  deriving DecidableEq

/-- A connection with the network layer under it, which may refuse a packet, the clock and the
next random number. Packets are numbered. -/
structure Host (Cc : Type) where
  conn : TcpConnection Cc
  sent : List TcpSegment
  packets : ℕ
  refuses : ℕ → Option NetError
  now : UInt64
  random : UInt32

variable {Cc : Type}

abbrev Call (Cc : Type) := EStateM NetError (Host Cc)

def modifyConn (f : TcpConnection Cc → TcpConnection Cc) : Call Cc Unit :=
  modify fun host => { host with conn := f host.conn }

def synOptions (mss : UInt16) : List (BitVec 8) :=
  [2, 4] ++ Disk.toBe 2 mss.toNat ++ [3, 3, 8, 4, 2]

def TcpConnection.segment (conn : TcpConnection Cc) (flags : TcpFlags) (data : List (BitVec 8)) :
    TcpSegment :=
  let options := if flags.syn then synOptions conn.mss else []
  { header :=
      { srcPort := conn.localAddr.port
        dstPort := conn.remote.port
        seqNum := conn.seqNum
        ackNum := conn.ackNum
        dataOffset := UInt8.ofNat (5 + (options.length + 3) / 4)
        flags
        windowSize := conn.windowSize
        checksum := 0
        urgentPtr := 0 }
    options
    data }

def sendPacket (flags : TcpFlags) (data : List (BitVec 8)) : Call Cc Unit := fun host =>
  match host.conn.localAddr.ip, host.conn.remote.ip with
  | .v4 _, .v4 _ | .v6 _, .v6 _ =>
    match host.refuses host.packets with
    | some e => .error e { host with packets := host.packets + 1 }
    | none =>
      .ok () { host with
        packets := host.packets + 1
        sent := host.sent ++ [host.conn.segment flags data] }
  | _, _ => .error .invalidParam host

/-- The options of a segment are read from its header written out again, which has none of the
option bytes of the packet. -/
def ownOptions (header : TcpHeader) : Call Cc TcpOptions :=
  match header.serialize (List.replicate header.headerLen 0) with
  | .error e => throw e
  | .ok rawHeader => pure (TcpOptions.parse rawHeader header.headerLen)

def negotiateMss (options : TcpOptions) (conn : TcpConnection Cc) : TcpConnection Cc :=
  match options.mss with
  | some peerMss => if 0 < peerMss ∧ peerMss < conn.mss then { conn with mss := peerMss } else conn
  | none => conn

def onListen (header : TcpHeader) (options : TcpOptions) : Call Cc Unit :=
  if header.flags.syn then do
    modify fun host =>
      let conn := { host.conn with
        remote :=
          { ip := match host.conn.family with
              | .ipv6 => .v6 0
              | .ipv4 => .v4 ⟨0⟩
            port := header.srcPort }
        seqNum := host.random
        ackNum := header.seqNum + 1 }
      { host with conn := { negotiateMss options conn with state := .synReceived } }
    sendPacket .synAck []
  else pure ()

def onSynSent (header : TcpHeader) (options : TcpOptions) : Call Cc Unit :=
  if header.flags.syn && header.flags.ack then do
    modifyConn fun conn =>
      { negotiateMss options { conn with ackNum := header.seqNum + 1 } with
        peerWsScale := options.windowScale.getD conn.peerWsScale
        sackPermitted := options.sackPermitted || conn.sackPermitted
        state := .established
        synRetransmitCount := 0 }
    sendPacket .ackOnly []
  else if header.flags.syn then do
    modifyConn fun conn => { conn with ackNum := header.seqNum + 1, state := .synReceived }
    sendPacket .synAck []
  else pure ()

def onSynReceived (header : TcpHeader) : Call Cc Unit :=
  if header.flags.ack then modifyConn fun conn => { conn with state := .established }
  else pure ()

variable (algorithm : Congestion Cc)

/-- A third duplicate acknowledgement is a loss: what is in the buffer goes out again. -/
def fastRetransmit (header : TcpHeader) : Call Cc Unit := do
  let host ← get
  let detected := host.conn.fastRetx.onAck header.ackNum host.conn.sndUna
  modifyConn fun conn => { conn with fastRetx := detected.2 }
  if detected.1 then
    let cc := algorithm.onLoss host.conn.cc host.now
    modifyConn fun conn =>
      { conn with cc, cwnd := algorithm.cwnd cc, ssthresh := algorithm.ssthresh cc }
    if !host.conn.txBuffer.isEmpty then sendPacket .ackOnly host.conn.txBuffer else pure ()
  else pure ()

def advanceUna (header : TcpHeader) : Call Cc Unit :=
  modify fun host =>
    let conn := host.conn
    let acked := header.ackNum - conn.sndUna
    if 0 < acked ∧ acked < 0x80000000 then
      let cc := algorithm.onAck conn.cc acked host.now conn.rtt
      { host with conn := { conn with
        cc
        cwnd := algorithm.cwnd cc
        ssthresh := algorithm.ssthresh cc
        sndUna := header.ackNum
        keepaliveLastPing := host.now
        keepaliveProbeCount := 0 } }
    else host

def processAck (header : TcpHeader) : Call Cc Unit :=
  if header.flags.ack then do
    fastRetransmit algorithm header
    advanceUna algorithm header
  else pure ()

/-- The data goes to the end of the buffer. Its sequence number is not looked at. -/
def receiveData (data : List (BitVec 8)) : Call Cc Unit :=
  if !data.isEmpty then do
    modifyConn fun conn =>
      { conn with
        rxBuffer := conn.rxBuffer ++ data
        ackNum := conn.ackNum + UInt32.ofNat data.length }
    sendPacket .ackOnly []
  else pure ()

def receiveFin (header : TcpHeader) : Call Cc Unit :=
  if header.flags.fin then do
    modifyConn fun conn => { conn with state := .closeWait, ackNum := conn.ackNum + 1 }
    sendPacket .ackOnly []
  else pure ()

/-- Data that acknowledges what was never sent is answered with a reset. -/
def refuseAck (header : TcpHeader) (data : List (BitVec 8)) : Call Cc Unit := do
  let host ← get
  if header.flags.ack && !data.isEmpty && decide (header.ackNum - host.conn.sndNxt < 0x80000000) &&
      header.ackNum != host.conn.sndNxt then sendPacket .rstOnly []
  else pure ()

def onEstablished (header : TcpHeader) (data : List (BitVec 8)) : Call Cc Unit := do
  processAck algorithm header
  receiveData data
  receiveFin header
  refuseAck header data

/-- The peer closes too: the last acknowledgement, then the wait for stray segments. -/
def enterTimeWait (header : TcpHeader) : Call Cc Unit :=
  if header.flags.fin then do
    modifyConn fun conn => { conn with ackNum := conn.ackNum + 1 }
    sendPacket .ackOnly []
    modify fun host =>
      { host with conn := { host.conn with state := .timeWait, timeWaitStart := host.now } }
  else pure ()

def onFinWait1 (header : TcpHeader) : Call Cc Unit := do
  modifyConn fun conn => if header.flags.ack then { conn with state := .finWait2 } else conn
  enterTimeWait header

def onClosing (header : TcpHeader) : Call Cc Unit :=
  modify fun host =>
    if header.flags.ack then
      { host with conn := { host.conn with state := .timeWait, timeWaitStart := host.now } }
    else host

def onRst : Call Cc Unit :=
  modifyConn fun conn =>
    match conn.state with
    | .synSent | .synReceived | .established | .closeWait => { conn with state := .closed }
    | _ => conn

def onState (header : TcpHeader) (data : List (BitVec 8))
    (options : TcpOptions) : Call Cc Unit := do
  let host ← get
  match host.conn.state with
  | .listen => onListen header options
  | .synSent => onSynSent header options
  | .synReceived => onSynReceived header
  | .established => onEstablished algorithm header data
  | .finWait1 => onFinWait1 header
  | .finWait2 => enterTimeWait header
  | .lastAck =>
    modifyConn fun conn => if header.flags.ack then { conn with state := .closed } else conn
  | .closing => onClosing header
  | .closed | .closeWait | .timeWait => pure ()

def noteAck (header : TcpHeader) : Call Cc Unit :=
  modifyConn fun conn => if header.flags.ack then { conn with ackNum := header.ackNum } else conn

def onPacket (header : TcpHeader) (data : List (BitVec 8)) : Call Cc Unit :=
  if header.flags.rst then onRst
  else do
    noteAck header
    let options ← ownOptions header
    onState algorithm header data options

def recv (len : ℕ) : Call Cc (List (BitVec 8)) := do
  let host ← get
  let conn := host.conn
  if conn.rxBuffer.isEmpty then
    if conn.state = .closeWait ∨ conn.state = .closed then throw .connectionClosed
    else throw .wouldBlock
  else
    modifyConn fun conn => { conn with rxBuffer := conn.rxBuffer.drop len }
    pure (conn.rxBuffer.take len)

end Tcp

end EchOS.Net
