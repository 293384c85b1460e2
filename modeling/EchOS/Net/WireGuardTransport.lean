import EchOS.Lib.Run
import EchOS.Net.WireGuardHandshake

/-! The two sessions of a handshake as the ends of a tunnel: packets that are encrypted at one end
and reach the other in order, if they reach it at all. -/

namespace EchOS.Net.Wg

open Bytes List Function

theorem ofLe_nonce (nonce : UInt64) : UInt64.ofNat (ofLe (toLe 8 nonce.toNat)) = nonce := by
  rw [ofLe_toLe (UInt64.toNat_lt nonce), UInt64.ofNat_toNat]

def sealedPacket (crypto : Crypto) (key : Key) (index : UInt32) (nonce : UInt64)
    (plain : List (BitVec 8)) : List (BitVec 8) :=
  let r := crypto.aeadEncrypt key (nonceBytes nonce) plain (transportHeader index nonce)
  transportHeader index nonce ++ (r.1 ++ r.2.toList)

section Packets

variable {crypto : Crypto} {session : WgSession} {nonce : UInt64} {plain : List (BitVec 8)}

@[simp] theorem length_transportHeader (index : UInt32) (nonce : UInt64) :
    (transportHeader index nonce).length = wgTransportHeaderLen := by
  simp [transportHeader, wgTransportHeaderLen]

variable (crypto nonce plain) in
theorem sealedPacket_header (key : Key) (index : UInt32) :
    let pkt := sealedPacket crypto key index nonce plain
    ¬ (pkt.length < wgTransportHeaderLen + wgTransportTagLen ∨ pkt.getD 0 0 ≠ 4) ∧
      slice pkt 4 8 = toLe 4 index.toNat ∧ slice pkt 8 16 = toLe 8 nonce.toNat := by
  intro pkt
  have hlength : pkt.length = wgTransportHeaderLen + (plain.length + wgTransportTagLen) := by
    simp [pkt, sealedPacket, crypto.length_aeadEncrypt, wgTransportTagLen]
  have hkind : pkt.getD 0 0 = 4 := by
    simp [pkt, sealedPacket, transportHeader]
  refine ⟨?_, ?_, ?_⟩
  · rintro (hshort | hother)
    · omega
    · exact hother hkind
  · simp only [pkt, sealedPacket, transportHeader, append_assoc]
    exact slice_middle (by simp) (by simp)
  · simp only [pkt, sealedPacket, transportHeader]
    rw [append_assoc]
    exact slice_middle (by simp) (by simp)

theorem decryptPacket_eq (hestablished : session.established = true)
    (hfresh : ¬ (session.receivingNonce ≠ wgNonceUninitialized ∧ nonce ≤ session.receivingNonce)) :
    decryptPacket crypto session
        (sealedPacket crypto session.receivingKey session.localIndex nonce plain) =
      (.ok plain, { session with receivingNonce := nonce }) := by
  obtain ⟨hshape, hindex, hnonce⟩ := sealedPacket_header crypto nonce plain session.receivingKey
    session.localIndex
  let r := crypto.aeadEncrypt session.receivingKey (nonceBytes nonce) plain
    (transportHeader session.localIndex nonce)
  have hheader : (sealedPacket crypto session.receivingKey session.localIndex nonce plain).take
      wgTransportHeaderLen = transportHeader session.localIndex nonce :=
    take_left' (length_transportHeader _ _)
  have hbody : (sealedPacket crypto session.receivingKey session.localIndex nonce plain).drop
      wgTransportHeaderLen = r.1 ++ r.2.toList := drop_left' (length_transportHeader _ _)
  have hsplit : (r.1 ++ r.2.toList).length - wgTransportTagLen = r.1.length := by
    simp [wgTransportTagLen]
  have hopened : crypto.aeadDecrypt session.receivingKey (nonceBytes nonce) r.1
      (transportHeader session.localIndex nonce) r.2 = some plain :=
    crypto.aeadDecrypt_aeadEncrypt _ _ _ _
  simp only [decryptPacket, if_neg hshape, hestablished, Bool.not_true, Bool.false_eq_true,
    if_false, hindex, hnonce, ofLe_index, ofLe_nonce, ne_eq, not_true_eq_false, if_neg hfresh,
    hheader, hbody, hsplit, take_left, drop_left, array_toList, hopened]

variable (crypto plain session) in
theorem decryptPacket_replay (hestablished : session.established = true)
    (hseen : session.receivingNonce ≠ wgNonceUninitialized ∧ nonce ≤ session.receivingNonce) :
    decryptPacket crypto session
        (sealedPacket crypto session.receivingKey session.localIndex nonce plain) =
      (.error .replay, session) := by
  obtain ⟨hshape, hindex, hnonce⟩ := sealedPacket_header crypto nonce plain session.receivingKey
    session.localIndex
  simp only [decryptPacket, if_neg hshape, hestablished, Bool.not_true, Bool.false_eq_true,
    if_false, hindex, hnonce, ofLe_index, ofLe_nonce, ne_eq, not_true_eq_false]
  rw [if_pos hseen]

variable (crypto session)

def packetNonce (pkt : List (BitVec 8)) : UInt64 := UInt64.ofNat (ofLe (slice pkt 8 16))

/-- The nonces of the packets that a session opens. -/
def openedNonces : WgSession → List (List (BitVec 8)) → List UInt64
  | _, [] => []
  | session, pkt :: pkts =>
    match decryptPacket crypto session pkt with
    | (.ok _, session) => packetNonce pkt :: openedNonces session pkts
    | (.error _, session) => openedNonces session pkts

theorem decryptPacket_cases (pkt : List (BitVec 8)) :
    (∃ e, decryptPacket crypto session pkt = (.error e, session)) ∨
    (∃ plain, decryptPacket crypto session pkt =
      (.ok plain, { session with receivingNonce := packetNonce pkt })) ∧
    (session.receivingNonce ≠ wgNonceUninitialized → session.receivingNonce < packetNonce pkt) := by
  unfold decryptPacket
  dsimp only
  split_ifs with hshape hestablished hindex hseen
  · exact .inl ⟨_, rfl⟩
  · exact .inl ⟨_, rfl⟩
  · exact .inl ⟨_, rfl⟩
  · exact .inl ⟨_, rfl⟩
  · cases crypto.aeadDecrypt _ _ _ _ _ with
    | none => exact .inl ⟨_, rfl⟩
    | some plain =>
      exact .inr ⟨⟨plain, rfl⟩, fun hmark => UInt64.not_le.mp fun hle => hseen ⟨hmark, hle⟩⟩

theorem openedNonces_increasing (pkts : List (List (BitVec 8)))
    (h : ∀ pkt ∈ pkts, packetNonce pkt ≠ wgNonceUninitialized) :
    (openedNonces crypto session pkts).Pairwise (· < ·) ∧
      (session.receivingNonce ≠ wgNonceUninitialized →
        ∀ n ∈ openedNonces crypto session pkts, session.receivingNonce < n) := by
  induction pkts generalizing session with
  | nil => exact ⟨.nil, fun _ => forall_mem_nil _⟩
  | cons pkt pkts ih =>
    obtain ⟨hpkt, hpkts⟩ := forall_mem_cons.mp h
    obtain ⟨e, herror⟩ | ⟨⟨plain, hopens⟩, hahead⟩ := decryptPacket_cases crypto session pkt
    · simp only [openedNonces, herror]
      exact ih session hpkts
    · obtain ⟨hincreasing, hlater⟩ := ih { session with receivingNonce := packetNonce pkt } hpkts
      simp only [openedNonces, hopens]
      refine ⟨pairwise_cons.mpr ⟨hlater hpkt, hincreasing⟩, fun hmark => ?_⟩
      refine forall_mem_cons.mpr ⟨hahead hmark, fun n hn => ?_⟩
      exact UInt64.lt_trans (hahead hmark) (hlater hpkt n hn)

end Packets

def listening : WgSession := { WgSession.fresh with established := true }

theorem openedNonces_increasing_gap : (openedNonces Crypto.clear listening (map (sealedPacket
    Crypto.clear listening.receivingKey listening.localIndex · []) [3, 3, 9])).Pairwise (· < ·) :=
  (openedNonces_increasing _ _ _ (by decide +kernel)).1

inductive Side
  | initiator
  | responder
  deriving DecidableEq

def Side.other : Side → Side
  | .initiator => .responder
  | .responder => .initiator

variable (side : Side)

theorem Side.other_ne : side.other ≠ side := by
  cases side <;> decide

@[simp] theorem Side.other_other : side.other.other = side := by
  cases side <;> rfl

theorem Side.forall_of {P : Side → Prop} (hself : P side) (hother : P side.other) : ∀ s, P s := by
  intro s
  cases side <;> cases s <;> assumption

structure Sent where
  pkt : List (BitVec 8)
  plain : List (BitVec 8)
  nonce : UInt64

def Sent.of (crypto : Crypto) (sender : WgSession) (plain : List (BitVec 8)) : Sent :=
  ⟨sealedPacket crypto sender.sendingKey sender.remoteIndex sender.sendingNonce plain, plain,
    sender.sendingNonce⟩

/-- Two sessions, the packets on their way from each side, the number of packets each side has
encrypted, and every result so far beside the packet that was meant. -/
structure Tunnel where
  session : Side → WgSession
  wire : Side → List Sent
  sent : Side → ℕ
  log : List (List (BitVec 8) × Except WgError (List (BitVec 8)))

inductive Event
  | send (side : Side) (plain : List (BitVec 8))
  | deliver (side : Side)
  | lose (side : Side)

namespace Tunnel

variable (crypto : Crypto)

/-- One event. A packet from a side is delivered to the other side or lost, and either way it
leaves the wire; a refused call is noted in the log. -/
def step (t : Tunnel) : Event → Tunnel
  | .send side plain =>
    let nonce := (t.session side).sendingNonce
    let r := encryptPacket crypto (t.session side) plain
    let t := { t with
      session := Function.update t.session side r.2
      sent := Function.update t.sent side (t.sent side + 1) }
    match r.1 with
    | .ok pkt => { t with
        wire := Function.update t.wire side
          (t.wire side ++ [{ pkt := pkt, plain := plain, nonce := nonce }]) }
    | .error e => { t with log := t.log ++ [(plain, .error e)] }
  | .deliver side =>
    match t.wire side with
    | [] => t
    | m :: rest =>
      let r := decryptPacket crypto (t.session side.other) m.pkt
      { t with
        session := Function.update t.session side.other r.2
        wire := Function.update t.wire side rest
        log := t.log ++ [(m.plain, r.1)] }
  | .lose side => { t with wire := Function.update t.wire side (t.wire side).tail }

def start (initiator responder : WgSession) : Tunnel :=
  { session := fun
      | .initiator => initiator
      | .responder => responder
    wire := fun _ => []
    sent := fun _ => 0
    log := [] }

/-- The 64-bit counter of the side has a value left. -/
def InBudget (t : Tunnel) : Event → Prop
  | .send side _ => t.sent side < 2 ^ 64
  | _ => True

/-- Every packet was encrypted, and what was delivered came out as it went in. -/
def Faithful (t : Tunnel) : Prop := ∀ entry ∈ t.log, entry.2 = .ok entry.1

end Tunnel

/-- The packets from one session to another: all sealed for the receiver, in the order of their
nonces, and ahead of what it has received. -/
structure Flow (crypto : Crypto) (sender receiver : WgSession) (wire : List Sent) (sent : ℕ) :
    Prop where
  sender_established : sender.established = true
  receiver_established : receiver.established = true
  key : sender.sendingKey = receiver.receivingKey
  index : sender.remoteIndex = receiver.localIndex
  index_ne : sender.remoteIndex ≠ 0
  counted : sender.sendingNonce = UInt64.ofNat sent
  sealed : ∀ m ∈ wire, m.nonce.toNat < sent ∧
    m.pkt = sealedPacket crypto receiver.receivingKey receiver.localIndex m.nonce m.plain
  ordered : wire.Pairwise fun m m' => m.nonce < m'.nonce
  fresh : receiver.receivingNonce = wgNonceUninitialized ∨
    (receiver.receivingNonce.toNat < sent ∧ ∀ m ∈ wire, receiver.receivingNonce < m.nonce)

namespace Flow

variable {crypto : Crypto} {sender receiver : WgSession} {wire : List Sent} {sent : ℕ}

theorem ofFeeds (h : Feeds sender receiver) : Flow crypto sender receiver [] 0 where
  sender_established := h.sender_established
  receiver_established := h.receiver_established
  key := h.key
  index := h.index
  index_ne := h.index_ne
  counted := h.unsent
  sealed := fun _ hm => nomatch hm
  ordered := List.Pairwise.nil
  fresh := .inl h.unreceived

section

variable (h : Flow crypto sender receiver wire sent) (nonce : UInt64)
include h

theorem lose : Flow crypto sender receiver wire.tail sent :=
  { h with
    sealed := fun m hm => h.sealed m (mem_of_mem_tail hm)
    ordered := h.ordered.tail
    fresh := h.fresh.imp_right fun hfresh =>
      ⟨hfresh.1, fun m hm => hfresh.2 m (mem_of_mem_tail hm)⟩ }

theorem send (hroom : sent < 2 ^ 64) (plain : List (BitVec 8)) :
    Flow crypto { sender with sendingNonce := sender.sendingNonce + 1 } receiver
      (wire ++ [.of crypto sender plain]) (sent + 1) := by
  have hnonce : sender.sendingNonce.toNat = sent := by
    rw [h.counted, UInt64.toNat_ofNat_of_lt' hroom]
  have habove : ∀ nonce : UInt64, nonce.toNat < sent → nonce < sender.sendingNonce := by
    intro nonce hlt
    rw [UInt64.lt_iff_toNat_lt, hnonce]
    exact hlt
  refine { h with counted := ?_, sealed := ?_, ordered := ?_, fresh := ?_ }
  · rw [h.counted, UInt64.ofNat_add]
    rfl
  · intro m hm
    rcases mem_append.mp hm with hold | hnew
    · obtain ⟨hbelow, hsealed⟩ := h.sealed m hold
      exact ⟨Nat.lt_succ_of_lt hbelow, hsealed⟩
    · rw [mem_singleton.mp hnew, Sent.of, hnonce, h.key, h.index]
      exact ⟨Nat.lt_succ_self sent, rfl⟩
  · refine pairwise_append.mpr ⟨h.ordered, pairwise_singleton _ _, ?_⟩
    intro m hm m' hm'
    rw [mem_singleton.mp hm']
    exact habove m.nonce (h.sealed m hm).1
  · refine h.fresh.imp_right fun hfresh => ⟨Nat.lt_succ_of_lt hfresh.1, ?_⟩
    intro m hm
    rcases mem_append.mp hm with hold | hnew
    · exact hfresh.2 m hold
    · rw [mem_singleton.mp hnew]
      exact habove _ hfresh.1

end

theorem deliver {m : Sent} (h : Flow crypto sender receiver (m :: wire) sent) :
    decryptPacket crypto receiver m.pkt =
      (.ok m.plain, { receiver with receivingNonce := m.nonce }) ∧
    Flow crypto sender { receiver with receivingNonce := m.nonce } wire sent := by
  have hhead : m ∈ m :: wire := mem_cons_self
  have hnew : ¬ (receiver.receivingNonce ≠ wgNonceUninitialized ∧
      m.nonce ≤ receiver.receivingNonce) := by
    rintro ⟨hinit, hle⟩
    rcases h.fresh with hnone | ⟨-, hahead⟩
    · exact hinit hnone
    · have hlt := hahead m hhead
      rw [UInt64.lt_iff_toNat_lt] at hlt
      rw [UInt64.le_iff_toNat_le] at hle
      omega
  constructor
  · rw [(h.sealed m hhead).2]
    exact decryptPacket_eq h.receiver_established hnew
  · exact { h with
      sealed := fun m' hm' => h.sealed m' (mem_cons_of_mem m hm')
      ordered := (pairwise_cons.mp h.ordered).2
      fresh := .inr ⟨(h.sealed m hhead).1, (pairwise_cons.mp h.ordered).1⟩ }

end Flow

namespace Tunnel

variable {crypto : Crypto} {t : Tunnel}

structure Sound (crypto : Crypto) (t : Tunnel) : Prop where
  flow : ∀ side, Flow crypto (t.session side) (t.session side.other) (t.wire side) (t.sent side)
  faithful : t.Faithful

variable {initiator responder : WgSession} {side : Side} {events : List Event}

theorem sound_start (hforth : Feeds initiator responder) (hback : Feeds responder initiator) :
    (start initiator responder).Sound crypto where
  flow := by
    intro side
    cases side with
    | initiator => exact Flow.ofFeeds hforth
    | responder => exact Flow.ofFeeds hback
  faithful := fun _ hentry => nomatch hentry

variable (crypto) in
theorem step_send (hestablished : (t.session side).established = true)
    (hindex : (t.session side).remoteIndex ≠ 0) (plain : List (BitVec 8)) :
    t.step crypto (.send side plain) =
      { t with
        session := Function.update t.session side
          { t.session side with sendingNonce := (t.session side).sendingNonce + 1 }
        sent := Function.update t.sent side (t.sent side + 1)
        wire := Function.update t.wire side
          (t.wire side ++ [.of crypto (t.session side) plain]) } := by
  simp only [step, encryptPacket, hestablished, Bool.not_true, Bool.false_eq_true, if_false,
    if_neg hindex, Sent.of, sealedPacket, append_assoc]

variable (crypto) in
theorem step_deliver {m : Sent} {rest : List Sent} (hwire : t.wire side = m :: rest) :
    t.step crypto (.deliver side) =
      { t with
        session := Function.update t.session side.other
          (decryptPacket crypto (t.session side.other) m.pkt).2
        wire := Function.update t.wire side rest
        log := t.log ++ [(m.plain, (decryptPacket crypto (t.session side.other) m.pkt).1)] } := by
  simp only [step, hwire]

theorem Sound.send (h : t.Sound crypto) (hroom : t.sent side < 2 ^ 64)
    (plain : List (BitVec 8)) : (t.step crypto (.send side plain)).Sound crypto := by
  have hflow := h.flow side
  have hback := h.flow side.other
  rw [Side.other_other] at hback
  rw [step_send crypto hflow.sender_established hflow.index_ne]
  refine ⟨Side.forall_of side ?_ ?_, h.faithful⟩
  · simp only [update_self, update_of_ne side.other_ne]
    exact hflow.send hroom plain
  · simp only [Side.other_other, update_self, update_of_ne side.other_ne]
    exact { hback with }

theorem Sound.deliver (h : t.Sound crypto) (side : Side) :
    (t.step crypto (.deliver side)).Sound crypto := by
  have hflow := h.flow side
  have hback := h.flow side.other
  rw [Side.other_other] at hback
  cases hwire : t.wire side with
  | nil =>
    have hstep : t.step crypto (.deliver side) = t := by simp only [step, hwire]
    rw [hstep]
    exact h
  | cons m rest =>
    rw [hwire] at hflow
    obtain ⟨hopened, hrest⟩ := hflow.deliver
    rw [step_deliver crypto hwire, hopened]
    refine ⟨Side.forall_of side ?_ ?_,
      forall_mem_append.mpr ⟨h.faithful, forall_mem_singleton.mpr rfl⟩⟩
    · simp only [update_self, update_of_ne side.other_ne.symm]
      exact hrest
    · simp only [Side.other_other, update_self, update_of_ne side.other_ne,
        update_of_ne side.other_ne.symm]
      -- what a side receives does not touch what it sends
      exact { hback with }

theorem Sound.lose (h : t.Sound crypto) (side : Side) :
    (t.step crypto (.lose side)).Sound crypto := by
  refine ⟨Side.forall_of side ?_ ?_, h.faithful⟩
  · simp only [step, update_self]
    exact (h.flow side).lose
  · simp only [step, update_of_ne side.other_ne]
    exact h.flow side.other

theorem Sound.step (h : t.Sound crypto) {event : Event} (hbudget : t.InBudget event) :
    (t.step crypto event).Sound crypto := by
  cases event with
  | send side plain => exact h.send hbudget plain
  | deliver side => exact h.deliver side
  | lose side => exact h.lose side

variable (crypto) in
theorem sent_step_le (t : Tunnel) (event : Event) (side : Side) :
    (t.step crypto event).sent side ≤ t.sent side + 1 := by
  cases event with
  | send s plain =>
    have hsent : (t.step crypto (.send s plain)).sent =
        Function.update t.sent s (t.sent s + 1) := by
      simp only [step]
      split <;> rfl
    rw [hsent, update_apply]
    split
    · next hs =>
      subst hs
      exact Nat.le_refl _
    · exact Nat.le_succ _
  | deliver s =>
    simp only [step]
    split <;> exact Nat.le_succ _
  | lose s => exact Nat.le_succ _

theorem inBudget_of_length :
    ∀ {t : Tunnel}, (∀ side, t.sent side + events.length ≤ 2 ^ 64) →
      Run.Along (step crypto) InBudget t events := by
  induction events with
  | nil => exact fun _ => trivial
  | cons event events ih =>
    intro t hroom
    simp only [length_cons] at hroom
    constructor
    · cases event with
      | send side plain =>
        have hside := hroom side
        show t.sent side < 2 ^ 64
        omega
      | deliver side | lose side => trivial
    · refine ih fun side => ?_
      have hle := sent_step_le crypto t event side
      have hside := hroom side
      omega

structure Idle (t : Tunnel) (side : Side) (sender receiver : WgSession) : Prop where
  sender : t.session side = sender
  receiver : t.session side.other = receiver
  wire : t.wire side = []

section Rounds

variable (crypto) {side : Side} {sender receiver : WgSession}

section

variable (h : t.Idle side sender receiver) (hestablished : sender.established = true)
  (hindex : sender.remoteIndex ≠ 0) (plain : List (BitVec 8))
include h hestablished hindex plain

theorem Idle.send_lose :
    ((t.step crypto (.send side plain)).step crypto (.lose side)).Idle side
      { sender with sendingNonce := sender.sendingNonce + 1 } receiver := by
  obtain ⟨rfl, rfl, hwire⟩ := h
  rw [step_send crypto hestablished hindex]
  refine ⟨update_self .., update_of_ne side.other_ne .., ?_⟩
  simp [step, hwire]

theorem Idle.send_deliver :
    let r := decryptPacket crypto receiver
      (sealedPacket crypto sender.sendingKey sender.remoteIndex sender.sendingNonce plain)
    let t' := (t.step crypto (.send side plain)).step crypto (.deliver side)
    t'.Idle side { sender with sendingNonce := sender.sendingNonce + 1 } r.2 ∧
      t'.log = t.log ++ [(plain, r.1)] := by
  obtain ⟨rfl, rfl, hwire⟩ := h
  intro r t'
  have hsent := step_send crypto hestablished hindex plain
  have hqueue : (t.step crypto (.send side plain)).wire side =
      [.of crypto (t.session side) plain] := by
    rw [hsent]
    simp [hwire]
  have hother : (t.step crypto (.send side plain)).session side.other = t.session side.other := by
    rw [hsent]
    exact update_of_ne side.other_ne ..
  have ht' := step_deliver crypto hqueue
  rw [hother] at ht'
  refine ⟨⟨?_, ?_, ?_⟩, ?_⟩
  · simp only [t', ht', update_of_ne side.other_ne.symm, hsent, update_self]
  · simp only [t', ht', update_self, r, Sent.of]
  · simp only [t', ht', update_self]
  · simp only [t', ht', hsent, r, Sent.of]

end

theorem Idle.lose_many (n : ℕ) : ∀ {t : Tunnel} {sender : WgSession},
    t.Idle side sender receiver → sender.established = true → sender.remoteIndex ≠ 0 →
    (Run.exec (step crypto) t (List.replicate n [.send side [], .lose side]).flatten).Idle side
      { sender with sendingNonce := sender.sendingNonce + UInt64.ofNat n } receiver := by
  induction n with
  | zero =>
    intro t sender h _ _
    have hnonce : sender.sendingNonce + UInt64.ofNat 0 = sender.sendingNonce := UInt64.add_zero _
    rw [hnonce]
    exact h
  | succ n ih =>
    intro t sender h hestablished hindex
    have hround := ih (h.send_lose crypto hestablished hindex []) hestablished hindex
    have hnonce : sender.sendingNonce + 1 + UInt64.ofNat n =
        sender.sendingNonce + UInt64.ofNat (n + 1) := by
      rw [UInt64.ofNat_add, UInt64.add_assoc, UInt64.add_comm 1]
      rfl
    simp only [hnonce] at hround
    exact hround

end Rounds

/-- One packet arrives, a number of others are lost, and one more arrives. -/
def outage (n : ℕ) (side : Side) : List Event :=
  [.send side [], .deliver side] ++
    ((List.replicate n [.send side [], .lose side]).flatten ++ [.send side [], .deliver side])

theorem not_faithful_outage {n : ℕ} (h : Feeds initiator responder) (hn : 1 + UInt64.ofNat n = 0) :
    ¬ (Run.exec (step crypto) (start initiator responder) (outage n .initiator)).Faithful := by
  have hidle : (start initiator responder).Idle .initiator initiator responder := ⟨rfl, rfl, rfl⟩
  obtain ⟨hfirst, -⟩ := hidle.send_deliver crypto h.sender_established h.index_ne []
  have hopened : decryptPacket crypto responder (sealedPacket crypto initiator.sendingKey
      initiator.remoteIndex initiator.sendingNonce []) =
      (.ok [], { responder with receivingNonce := initiator.sendingNonce }) := by
    rw [h.key, h.index]
    exact decryptPacket_eq h.receiver_established fun hseen => hseen.1 h.unreceived
  rw [hopened] at hfirst
  have hlost := hfirst.lose_many crypto n h.sender_established h.index_ne
  have hwrapped : initiator.sendingNonce + 1 + UInt64.ofNat n = initiator.sendingNonce := by
    rw [UInt64.add_assoc, hn, UInt64.add_zero]
  simp only [hwrapped] at hlost
  obtain ⟨-, hlog⟩ := hlost.send_deliver crypto h.sender_established h.index_ne []
  have hrefused : (decryptPacket crypto { responder with receivingNonce := initiator.sendingNonce }
      (sealedPacket crypto initiator.sendingKey initiator.remoteIndex
        initiator.sendingNonce [])).1 =
      .error .replay := by
    have hseen : initiator.sendingNonce ≠ wgNonceUninitialized := by
      rw [h.unsent]
      decide
    rw [h.key, h.index]
    have hreplay := decryptPacket_replay crypto
      { responder with receivingNonce := initiator.sendingNonce } [] h.receiver_established
      ⟨hseen, UInt64.le_refl _⟩
    exact congrArg Prod.fst hreplay
  rw [hrefused] at hlog
  intro hfaithful
  have hentry : ([], .error .replay) ∈
      (Run.exec (step crypto) (start initiator responder) (outage n .initiator)).log := by
    rw [outage, Run.exec_append, Run.exec_append]
    exact hlog ▸ mem_append_right _ mem_cons_self
  exact nomatch hfaithful _ hentry

end Tunnel

namespace Exchange

/-- The handshake succeeds and the two sides agree on the keys of both directions, and then every
packet that is delivered comes out as it went in, as long as no side has used up its counter. -/
theorem agreement_and_delivery {crypto : Crypto} (x : Exchange crypto)
    (hkeyed : x.transcript.Keyed crypto) (hmac2 : x.ZeroMac2) :
    ∃ (reply : List (BitVec 8)) (initiator responder : WgDevice) (entry peer : WgPeer),
      (x.initiator.initiateHandshake crypto x.entry x.draw x.now).1 = .ok x.message ∧
      x.responder.processInitiation crypto x.message x.src x.answer = (.ok reply, responder) ∧
      x.waiting.processResponse crypto reply = (.ok [], initiator) ∧
      initiator.getPeer x.entry.publicKey = some entry ∧
      responder.getPeer x.peer.publicKey = some peer ∧
      entry.session.sendingKey = peer.session.receivingKey ∧
      peer.session.sendingKey = entry.session.receivingKey ∧
      ∀ events : List Event,
        Run.Along (Tunnel.step crypto) Tunnel.InBudget
          (Tunnel.start entry.session peer.session) events →
        (Run.exec (Tunnel.step crypto)
          (Tunnel.start entry.session peer.session) events).Faithful := by
  obtain ⟨reply, initiator, responder, entry, peer, hmessage, hinitiation, hresponse, hentry, hpeer,
    hforth, hback⟩ := x.sessions_agree hkeyed hmac2
  refine ⟨reply, initiator, responder, entry, peer, hmessage, hinitiation, hresponse, hentry, hpeer,
    hforth.key, hback.key, ?_⟩
  intro events hbudget
  refine (Run.Along.invariant (I := Tunnel.Sound crypto) ?_ (Tunnel.sound_start hforth hback)
    hbudget).faithful
  exact fun _ _ hsound hroom => hsound.step hroom

theorem agreement_and_delivery_office :
    office.transcript.Keyed Crypto.clear ∧ office.ZeroMac2 ∧
    ∃ (reply : List (BitVec 8)) (initiator responder : WgDevice) (entry peer : WgPeer),
      office.responder.processInitiation Crypto.clear office.message office.src office.answer =
        (.ok reply, responder) ∧
      office.waiting.processResponse Crypto.clear reply = (.ok [], initiator) ∧
      initiator.getPeer office.entry.publicKey = some entry ∧
      responder.getPeer office.peer.publicKey = some peer ∧
      (Run.exec (Tunnel.step Crypto.clear) (Tunnel.start entry.session peer.session)
        [.send .initiator [1, 2], .send .initiator [3], .send .responder [4], .lose .initiator,
          .deliver .responder, .deliver .initiator]).Faithful := by
  have hkeyed := Crypto.keyed_clear office.transcript
  have hmac2 := office.zeroMac2_of_cookieExpired hkeyed rfl
  obtain ⟨reply, initiator, responder, entry, peer, -, hinitiation, hresponse, hentry, hpeer, -, -,
    hdelivered⟩ := agreement_and_delivery office hkeyed hmac2
  refine ⟨hkeyed, hmac2, reply, initiator, responder, entry, peer, hinitiation, hresponse, hentry,
    hpeer, hdelivered _ (Tunnel.inBudget_of_length ?_)⟩
  intro side
  show 0 + 6 ≤ 2 ^ 64
  decide

/-- Once the counter has wrapped, a packet that arrives is refused. -/
theorem delivery_fails_after_wrap :
    ∃ (reply : List (BitVec 8)) (initiator responder : WgDevice) (entry peer : WgPeer),
      office.responder.processInitiation Crypto.clear office.message office.src office.answer =
        (.ok reply, responder) ∧
      office.waiting.processResponse Crypto.clear reply = (.ok [], initiator) ∧
      initiator.getPeer office.entry.publicKey = some entry ∧
      responder.getPeer office.peer.publicKey = some peer ∧
      ¬ (Run.exec (Tunnel.step Crypto.clear) (Tunnel.start entry.session peer.session)
        (Tunnel.outage (2 ^ 64 - 1) .initiator)).Faithful := by
  have hkeyed := Crypto.keyed_clear office.transcript
  obtain ⟨reply, initiator, responder, entry, peer, -, hinitiation, hresponse, hentry,
    hpeer, hforth,
    -⟩ := office.sessions_agree hkeyed (office.zeroMac2_of_cookieExpired hkeyed rfl)
  have hwraps : 1 + UInt64.ofNat (2 ^ 64 - 1) = 0 := by decide
  exact ⟨reply, initiator, responder, entry, peer, hinitiation, hresponse, hentry, hpeer,
    Tunnel.not_faithful_outage hforth hwraps⟩

end Exchange

end EchOS.Net.Wg
