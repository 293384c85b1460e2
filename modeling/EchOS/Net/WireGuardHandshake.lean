import EchOS.Net.WireGuard
import Mathlib.Data.List.Nodup

/-! The transcript that the three handshake functions follow, and what each of them makes of it. -/

namespace EchOS.Net.Wg

open Bytes WgDevice List

theorem clamp_clamp (bytes : Key) : clamp (clamp bytes) = clamp bytes := by
  have hlow : ∀ x : BitVec 8, x &&& 248 &&& 248 = x &&& 248 := by
    intro x
    rw [BitVec.and_assoc, BitVec.and_self]
  have hhigh : ∀ x : BitVec 8, ((x &&& 127 ||| 64) &&& 127) ||| 64 = x &&& 127 ||| 64 := by decide
  apply Vector.ext
  intro i hi
  by_cases hlast : i = 31
  · subst hlast
    simp only [clamp, Vector.getElem_set_self]
    exact hhigh bytes[31]
  · by_cases hfirst : i = 0
    · subst hfirst
      have hother : (31 : ℕ) ≠ 0 := by decide
      simp only [clamp, Vector.getElem_set_self, Vector.getElem_set_ne _ _ hother]
      exact hlow bytes[0]
    · simp [clamp, Ne.symm hlast, Ne.symm hfirst]

section Sealing

variable {crypto : Crypto} {noise : NoiseState} {plain : List (BitVec 8)}

@[simp] theorem length_aeadSeal : (noise.aeadSeal crypto plain).length = plain.length + 16 := by
  simp [NoiseState.aeadSeal, crypto.length_aeadEncrypt]

theorem encryptAndHash_of_hasKey (h : noise.hasKey = true) :
    noise.encryptAndHash crypto plain =
      (noise.aeadSeal crypto plain, noise.absorb crypto (noise.aeadSeal crypto plain)) := by
  rw [NoiseState.encryptAndHash, if_pos h]

theorem decryptAndHash_aeadSeal (h : noise.hasKey = true) :
    noise.decryptAndHash crypto (noise.aeadSeal crypto plain) =
      some (plain, noise.absorb crypto (noise.aeadSeal crypto plain)) := by
  have hlength : (noise.aeadSeal crypto plain).length - 16 =
      (crypto.aeadEncrypt noise.k (nonceBytes noise.n) plain noise.h.toList).1.length := by
    rw [length_aeadSeal, crypto.length_aeadEncrypt]
    omega
  have htake : (noise.aeadSeal crypto plain).take ((noise.aeadSeal crypto plain).length - 16) =
      (crypto.aeadEncrypt noise.k (nonceBytes noise.n) plain noise.h.toList).1 := by
    rw [hlength]
    exact take_left
  have hdrop : (noise.aeadSeal crypto plain).drop ((noise.aeadSeal crypto plain).length - 16) =
      (crypto.aeadEncrypt noise.k (nonceBytes noise.n) plain noise.h.toList).2.toList := by
    rw [hlength]
    exact drop_left
  have hlong : ¬ (noise.aeadSeal crypto plain).length < 16 := by
    rw [length_aeadSeal]
    omega
  simp only [NoiseState.decryptAndHash, if_pos h, if_neg hlong, htake, hdrop, array_toList,
    crypto.aeadDecrypt_aeadEncrypt, Option.map_some]

end Sealing

/-- What the two sides hash and mix: the public values and the four agreements. -/
structure Transcript where
  responder : Key
  psk : Key
  ephemeral : Key
  es : Key
  static : Key
  ss : Key
  answer : Key
  ee : Key
  se : Key

namespace Transcript

variable (crypto : Crypto) (t : Transcript)

def staticNoise : NoiseState :=
  let noise := { NoiseState.new crypto t.responder with ps := t.psk }
  ((noise.mixHash crypto t.ephemeral.toList).mixKey crypto t.ephemeral).mixKey crypto t.es

def stampNoise : NoiseState :=
  let noise := t.staticNoise crypto
  ((noise.absorb crypto (noise.aeadSeal crypto t.static.toList)).mixKey crypto t.ss).mixKeyAndHash
    crypto t.psk

def openedNoise : NoiseState :=
  let noise := t.stampNoise crypto
  noise.absorb crypto (noise.aeadSeal crypto timestamp)

def emptyNoise : NoiseState :=
  let noise := ((t.openedNoise crypto).mixHash crypto t.answer.toList).mixKey crypto t.answer
  ((noise.mixKey crypto t.ee).mixKey crypto t.se).mixKeyAndHash crypto t.psk

def keys : Key × Key :=
  let noise := t.emptyNoise crypto
  (noise.absorb crypto (noise.aeadSeal crypto [])).split crypto

/-- None of the three keys that seal a handshake message is all zero. -/
structure Keyed : Prop where
  static : (t.staticNoise crypto).hasKey = true
  stamp : (t.stampNoise crypto).hasKey = true
  empty : (t.emptyNoise crypto).hasKey = true

def initiationBody (index : UInt32) : List (BitVec 8) :=
  [1, 0, 0, 0] ++ toLe 4 index.toNat ++ t.ephemeral.toList ++
    (t.staticNoise crypto).aeadSeal crypto t.static.toList ++
    (t.stampNoise crypto).aeadSeal crypto timestamp

def responseBody (index senderIndex : UInt32) : List (BitVec 8) :=
  [2, 0, 0, 0] ++ toLe 4 index.toNat ++ toLe 4 senderIndex.toNat ++ t.answer.toList ++
    (t.emptyNoise crypto).aeadSeal crypto []

end Transcript

def WgSession.answered (session : WgSession) (keys : Key × Key) (index senderIndex : UInt32) :
    WgSession :=
  { session with
    remoteIndex := senderIndex
    localIndex := index
    sendingKey := keys.2
    receivingKey := keys.1
    sendingNonce := 0
    receivingNonce := wgNonceUninitialized
    isInitiator := false
    established := true
    pendingInitiatorPrivate := zeroKey
    handshakePending := false }

def WgSession.completed (session : WgSession) (keys : Key × Key) (index : UInt32) : WgSession :=
  { session with
    remoteIndex := index
    sendingKey := keys.1
    receivingKey := keys.2
    sendingNonce := 0
    receivingNonce := wgNonceUninitialized
    pendingInitiatorPrivate := zeroKey
    handshakePending := false
    established := true }

theorem ofLe_index (index : UInt32) : UInt32.ofNat (ofLe (toLe 4 index.toNat)) = index := by
  rw [ofLe_toLe (UInt32.toNat_lt index), UInt32.ofNat_toNat]

section Layout

variable (crypto : Crypto) (t : Transcript) (index senderIndex : UInt32) (rest : List (BitVec 8))

@[simp] theorem length_initiationBody : (t.initiationBody crypto index).length = 116 := by
  simp [Transcript.initiationBody, timestamp]

@[simp] theorem length_responseBody : (t.responseBody crypto index senderIndex).length = 60 := by
  simp [Transcript.responseBody]

theorem slice_initiation_index :
    slice (t.initiationBody crypto index ++ rest) 4 8 = toLe 4 index.toNat := by
  simp only [Transcript.initiationBody, append_assoc]
  exact slice_middle (by simp) (by simp)

theorem slice_initiation_ephemeral :
    slice (t.initiationBody crypto index ++ rest) 8 40 = t.ephemeral.toList := by
  simp only [Transcript.initiationBody]
  rw [append_assoc, append_assoc, append_assoc]
  exact slice_middle (by simp) (by simp)

theorem slice_initiation_static :
    slice (t.initiationBody crypto index ++ rest) 40 88 =
      (t.staticNoise crypto).aeadSeal crypto t.static.toList := by
  simp only [Transcript.initiationBody]
  rw [append_assoc, append_assoc]
  exact slice_middle (by simp) (by simp)

theorem slice_initiation_stamp :
    slice (t.initiationBody crypto index ++ rest) 88 116 =
      (t.stampNoise crypto).aeadSeal crypto timestamp := by
  simp only [Transcript.initiationBody]
  rw [append_assoc]
  exact slice_middle (by simp) (by simp [timestamp])

theorem slice_response_index :
    slice (t.responseBody crypto index senderIndex ++ rest) 4 8 = toLe 4 index.toNat := by
  simp only [Transcript.responseBody, append_assoc]
  exact slice_middle (by simp) (by simp)

theorem slice_response_senderIndex :
    slice (t.responseBody crypto index senderIndex ++ rest) 8 12 = toLe 4 senderIndex.toNat := by
  simp only [Transcript.responseBody]
  rw [append_assoc, append_assoc, append_assoc]
  exact slice_middle (by simp) (by simp)

theorem slice_response_answer :
    slice (t.responseBody crypto index senderIndex ++ rest) 12 44 = t.answer.toList := by
  simp only [Transcript.responseBody]
  rw [append_assoc, append_assoc]
  exact slice_middle (by simp) (by simp)

theorem slice_response_empty :
    slice (t.responseBody crypto index senderIndex ++ rest) 44 60 =
      (t.emptyNoise crypto).aeadSeal crypto [] := by
  simp only [Transcript.responseBody]
  rw [append_assoc]
  exact slice_middle (by simp) (by simp)

end Layout

def transcript (crypto : Crypto) (initiator : WgDevice) (entry : WgPeer) (seed answerSeed : Key) :
    Transcript :=
  { responder := entry.publicKey
    psk := entry.presharedKey
    ephemeral := crypto.publicKey (clamp seed)
    es := crypto.x25519 (clamp seed) entry.publicKey
    static := crypto.publicKey (clamp initiator.privateKey)
    ss := crypto.x25519 (clamp initiator.privateKey) entry.publicKey
    answer := crypto.publicKey (clamp answerSeed)
    ee := crypto.x25519 (clamp seed) (crypto.publicKey (clamp answerSeed))
    se := crypto.x25519 (clamp initiator.privateKey) (crypto.publicKey (clamp answerSeed)) }

def mac1 (crypto : Crypto) (receiver : Key) (body : List (BitVec 8)) : Tag :=
  noiseMac crypto (deriveMac1Key crypto receiver).toList body

section Initiate

variable {crypto : Crypto} {initiator : WgDevice} {entry : WgPeer} {draw : Draw} {answerSeed : Key}
  {t : Transcript} (now : UInt64)

theorem initiateHandshake_eq (ht : t = transcript crypto initiator entry draw.seed answerSeed) :
    ∃ (noise : NoiseState) (mac2 : Tag), t.staticNoise crypto = { noise with ps := t.psk } ∧
      (cookieExpired entry.session now = true → mac2 = zeroTag) ∧
      let static := noise.encryptAndHash crypto t.static.toList
      let stamp := ((static.2.mixKey crypto t.ss).mixKeyAndHash crypto t.psk).encryptAndHash crypto
        timestamp
      let body := [1, 0, 0, 0] ++ toLe 4 draw.index.toNat ++ t.ephemeral.toList ++ static.1 ++
        stamp.1
      (initiator.initiateHandshake crypto entry draw now).1 =
        if body.length < 116 then .error .panic
        else .ok (body ++ (mac1 crypto t.responder (body.take 116)).toList ++ mac2.toList) := by
  subst ht
  let ePub := crypto.publicKey (clamp draw.seed)
  exact ⟨(((NoiseState.new crypto entry.publicKey).mixHash crypto ePub.toList).mixKey crypto
    ePub).mixKey crypto (crypto.x25519 (clamp draw.seed) entry.publicKey), _, rfl,
    fun hexpired => if_pos hexpired, rfl⟩

theorem initiateHandshake_message
    (ht : t = transcript crypto initiator entry draw.seed answerSeed) (hkeyed : t.Keyed crypto) :
    ∃ mac2 : Tag, (cookieExpired entry.session now = true → mac2 = zeroTag) ∧
      (initiator.initiateHandshake crypto entry draw now).1 =
        .ok (t.initiationBody crypto draw.index ++
        ((mac1 crypto t.responder (t.initiationBody crypto draw.index)).toList ++
          mac2.toList)) := by
  obtain ⟨noise, mac2, hnoise, hcookie, hmessage⟩ := initiateHandshake_eq now ht
  have hstaticKey : noise.hasKey = true := by
    have hkey := hkeyed.static
    rw [hnoise] at hkey
    exact hkey
  have hstampKey : (((noise.absorb crypto (noise.aeadSeal crypto t.static.toList)).mixKey crypto
      t.ss).mixKeyAndHash crypto t.psk).hasKey = true := by
    have hkey := hkeyed.stamp
    rw [Transcript.stampNoise, hnoise] at hkey
    exact hkey
  have hbody : t.initiationBody crypto draw.index = [1, 0, 0, 0] ++ toLe 4 draw.index.toNat ++
      t.ephemeral.toList ++ noise.aeadSeal crypto t.static.toList ++
      (((noise.absorb crypto (noise.aeadSeal crypto t.static.toList)).mixKey crypto
        t.ss).mixKeyAndHash crypto t.psk).aeadSeal crypto timestamp := by
    rw [Transcript.initiationBody, Transcript.stampNoise, hnoise]
    rfl
  have hlong : ¬(t.initiationBody crypto draw.index).length < 116 := by simp
  have htake : (t.initiationBody crypto draw.index).take 116 = t.initiationBody crypto draw.index :=
    take_of_length_le (by simp)
  simp only [encryptAndHash_of_hasKey hstaticKey, encryptAndHash_of_hasKey hstampKey, ← hbody,
    htake, if_neg hlong] at hmessage
  rw [append_assoc] at hmessage
  exact ⟨mac2, hcookie, hmessage⟩

end Initiate

section Respond

variable {crypto : Crypto} {device : WgDevice} {peer : WgPeer} {t : Transcript} {index : UInt32}
  {src : Endpoint} {mac2 : Tag}

theorem openInitiation_eq (hkeyed : t.Keyed crypto) (hresponder : t.responder = device.publicKey)
    (hpsk : t.psk = peer.presharedKey)
    (hes : t.es = crypto.x25519 (clamp device.privateKey) t.ephemeral)
    (hss : t.ss = crypto.x25519 (clamp device.privateKey) t.static) (hindex : index ≠ 0)
    (hselect : device.selectHandshakePeer src = .ok peer) (hmac2 : ∀ byte ∈ mac2.toList, byte = 0) :
    device.openInitiation crypto (t.initiationBody crypto index ++
      ((mac1 crypto device.publicKey (t.initiationBody crypto index)).toList ++ mac2.toList)) src =
      .ok { peer := peer, senderIndex := index, initiatorStatic := t.static, re := t.ephemeral
            noise := t.openedNoise crypto } := by
  generalize hpkt : t.initiationBody crypto index ++
    ((mac1 crypto device.publicKey (t.initiationBody crypto index)).toList ++ mac2.toList) = pkt
  have hlength : pkt.length = 148 := by simp [← hpkt]
  have hsender : UInt32.ofNat (ofLe (slice pkt 4 8)) = index := by
    rw [← hpkt, slice_initiation_index, ofLe_index]
  have hre : array 32 (slice pkt 8 40) = t.ephemeral := by
    rw [← hpkt, slice_initiation_ephemeral, array_toList]
  have hbody : pkt.take wgInitiationBodyLen = t.initiationBody crypto index := by
    rw [← hpkt]
    exact take_left' (by simp [wgInitiationBodyLen])
  have hverify1 : device.verifyInitiationMac1 crypto pkt = true := by
    have hmac1 : slice pkt wgInitiationBodyLen (wgInitiationBodyLen + wgMacLen) =
        (mac1 crypto device.publicKey (t.initiationBody crypto index)).toList := by
      rw [← hpkt]
      exact slice_middle (by simp [wgInitiationBodyLen]) (by simp [wgMacLen])
    simp only [verifyInitiationMac1, hlength, hbody, hmac1, decide_eq_true_eq]
    exact ⟨Nat.le_refl _, rfl⟩
  have hverify2 : device.verifyInitiationMac2 crypto pkt index src = true := by
    have hzero : slice pkt (wgInitiationBodyLen + wgMacLen) wgInitiationLen = mac2.toList := by
      have hsplit : pkt = t.initiationBody crypto index ++ (mac1 crypto device.publicKey
          (t.initiationBody crypto index)).toList ++ (mac2.toList ++ []) := by
        rw [← hpkt, append_nil, append_assoc]
      rw [hsplit]
      exact slice_middle (by simp [wgInitiationBodyLen, wgMacLen])
        (by simp [wgInitiationBodyLen, wgMacLen, wgInitiationLen])
    simp only [verifyInitiationMac2, hlength, hzero, decide_eq_true_eq, all_eq_true]
    exact ⟨Nat.le_refl _, .inl hmac2⟩
  have hstaticNoise : device.staticNoise crypto peer pkt = t.staticNoise crypto := by
    simp only [staticNoise, hre, Transcript.staticNoise, hresponder, hpsk, hes]
  obtain ⟨noise, hnoise⟩ : ∃ noise, noise = (t.staticNoise crypto).absorb crypto
    ((t.staticNoise crypto).aeadSeal crypto t.static.toList) := ⟨_, rfl⟩
  have hstatic : (t.staticNoise crypto).decryptAndHash crypto (slice pkt 40 88) =
      some (t.static.toList, noise) := by
    rw [hnoise, ← hpkt, slice_initiation_static, decryptAndHash_aeadSeal hkeyed.static]
  have hstamp : (t.stampNoise crypto).decryptAndHash crypto (slice pkt 88 116) =
      some (timestamp, t.openedNoise crypto) := by
    rw [← hpkt, slice_initiation_stamp, decryptAndHash_aeadSeal hkeyed.stamp]
    rfl
  have hlong : ¬ pkt.length < wgInitiationLen := by
    rw [hlength]
    decide
  have hchecked : device.checkInitiation crypto pkt src = .ok (peer, index) := by
    simp only [checkInitiation, if_neg hlong, hsender, if_neg hindex, hselect, hverify1,
      hverify2, Bool.not_true, Bool.false_eq_true, if_false]
  have hopened : device.openStatic crypto peer pkt = .ok (t.static, noise) := by
    simp only [openStatic, hstaticNoise, hstatic, Vector.length_toList, if_true,
      array_toList]
  have hstamped : device.openStamp crypto pkt t.static noise = .ok (t.openedNoise crypto) := by
    have hmixed : (noise.mixKey crypto t.ss).mixKeyAndHash crypto (noise.mixKey crypto t.ss).ps =
        t.stampNoise crypto := by
      rw [hnoise]
      rfl
    simp only [openStamp, ← hss, hmixed, hstamp]
  simp only [openInitiation, hchecked, bind, Except.bind, hopened, hstamped, hre]
  rfl

variable (device src) in
theorem respond_eq (opened : Opened) (draw : Draw) (hkeyed : t.Keyed crypto)
    (hnoise : opened.noise = t.openedNoise crypto)
    (hanswer : t.answer = crypto.publicKey (clamp draw.seed))
    (hee : t.ee = crypto.x25519 (clamp draw.seed) opened.re)
    (hse : t.se = crypto.x25519 (clamp draw.seed) opened.initiatorStatic) :
    (∃ rest : List (BitVec 8), rest.length = 32 ∧ (device.respond crypto opened draw src).1 =
      .ok (t.responseBody crypto draw.index opened.senderIndex ++ rest)) ∧
    (device.respond crypto opened draw src).2 =
      opened.peer.session.answered (t.keys crypto) draw.index opened.senderIndex := by
  have hmixed : ((((opened.noise.mixHash crypto t.answer.toList).mixKey crypto t.answer).mixKey
      crypto t.ee).mixKey crypto t.se).mixKeyAndHash crypto
      ((((opened.noise.mixHash crypto t.answer.toList).mixKey crypto t.answer).mixKey
      crypto t.ee).mixKey crypto t.se).ps = t.emptyNoise crypto := by
    rw [hnoise]
    rfl
  have hempty : (t.emptyNoise crypto).encryptAndHash crypto [] = _ :=
    encryptAndHash_of_hasKey hkeyed.empty
  constructor
  · have hlong : ¬(t.responseBody crypto draw.index opened.senderIndex).length < 60 := by simp
    rw [Transcript.responseBody] at hlong ⊢
    simp only [respond, ← hanswer, ← hee, ← hse, hmixed, hempty, if_neg hlong]
    refine ⟨_, ?_, congrArg Except.ok (append_assoc _ _ _)⟩
    simp
  · simp only [respond, ← hanswer, ← hee, ← hse, hmixed, hempty]
    rfl

end Respond

section Answer

variable {crypto : Crypto} {device : WgDevice} {peer : WgPeer} {t : Transcript}
  {answerSeed seed : Key}

theorem find?_eq_some_of_unique {α : Type} {l : List α} {p : α → Bool} {x : α} (hmem : x ∈ l)
    (hx : p x = true) (hunique : ∀ y ∈ l, p y = true → y = x) : l.find? p = some x := by
  cases hfind : l.find? p with
  | none => exact absurd hx (List.find?_eq_none.mp hfind x hmem)
  | some y => rw [hunique y (List.mem_of_find?_eq_some hfind) (List.find?_some hfind)]

variable (peer) in
theorem processResponse_eq {index senderIndex : UInt32}
    {rest : List (BitVec 8)} (ht : t = transcript crypto device peer seed answerSeed)
    (hkeyed : t.Keyed crypto) (hpending : peer.session.pendingInitiatorPrivate = clamp seed)
    (hmem : peer ∈ device.peers) (hlocal : peer.session.localIndex = senderIndex)
    (hinitiator : peer.session.isInitiator = true) (hwaits : peer.session.handshakePending = true)
    (honly : ∀ q ∈ device.peers, q.session.localIndex = senderIndex → q = peer)
    (hindex : index ≠ 0) (hsender : senderIndex ≠ 0) (hrest : rest.length = 32) :
    device.processResponse crypto (t.responseBody crypto index senderIndex ++ rest) =
      (.ok [],
        device.setSession peer.publicKey (peer.session.completed (t.keys crypto) index)) := by
  have hlong : ¬ (t.responseBody crypto index senderIndex ++ rest).length < 92 := by
    rw [length_append, length_responseBody, hrest]
    decide
  have hindices : ¬ (index = 0 ∨ senderIndex = 0) := fun h => h.elim hindex hsender
  have hfind : device.peers.find? (fun q => decide (q.session.localIndex = senderIndex ∧
      q.session.isInitiator = true ∧ q.session.handshakePending = true)) = some peer := by
    refine find?_eq_some_of_unique hmem ?_ ?_
    · exact decide_eq_true ⟨hlocal, hinitiator, hwaits⟩
    · intro q hq hmatch
      exact honly q hq (of_decide_eq_true hmatch).1
  have hopened : (t.emptyNoise crypto).decryptAndHash crypto
      ((t.emptyNoise crypto).aeadSeal crypto []) = _ := decryptAndHash_aeadSeal hkeyed.empty
  have hnoise : device.responseNoise crypto peer t.answer = t.emptyNoise crypto := by
    subst ht
    simp only [responseNoise, hpending, clamp_clamp]
    rfl
  simp only [processResponse, slice_response_index, slice_response_senderIndex,
    slice_response_answer, slice_response_empty, ofLe_index, array_toList, if_neg hlong,
    if_neg hindices, hfind, hnoise, hopened]
  rfl

end Answer

namespace WgDevice

variable {device : WgDevice} {peer : WgPeer} {key : Key} {session : WgSession} {q : WgPeer}

theorem eq_of_publicKey (hpeer : peer ∈ device.peers) (hq : q ∈ device.peers)
    (h : q.publicKey = peer.publicKey) : q = peer :=
  inj_on_of_nodup_map device.distinct hq hpeer h

section

variable (hpeer : peer ∈ device.peers)
include hpeer

variable (session) in
theorem mem_setSession_self :
    { peer with session := session } ∈ (device.setSession peer.publicKey session).peers :=
  mem_map.mpr ⟨peer, hpeer, if_pos rfl⟩

theorem mem_setSession (hq : q ∈ (device.setSession peer.publicKey session).peers) :
    q = { peer with session := session } ∨ (q ∈ device.peers ∧ q.publicKey ≠ peer.publicKey) := by
  obtain ⟨q, hmem, rfl⟩ := mem_map.mp hq
  split_ifs with hkey
  · rw [eq_of_publicKey hpeer hmem hkey]
    exact .inl rfl
  · exact .inr ⟨hmem, hkey⟩

theorem getPeer_of_mem : device.getPeer peer.publicKey = some peer :=
  find?_eq_some_of_unique hpeer (decide_eq_true rfl)
    fun _ hq hmatch => eq_of_publicKey hpeer hq (of_decide_eq_true hmatch)

theorem selectHandshakePeer_eq {src : Endpoint} (hsrc : peer.endpoint = src)
    (honly : ∀ q ∈ device.peers, q.endpoint = src → q = peer) :
    device.selectHandshakePeer src = .ok peer := by
  have hnodup : device.peers.Nodup := Nodup.of_map _ device.distinct
  have hall : ∀ q ∈ device.peers.filter (fun q => decide (q.endpoint = src)), q = peer := by
    intro q hq
    obtain ⟨hmem, hmatch⟩ := mem_filter.mp hq
    exact honly q hmem (of_decide_eq_true hmatch)
  have hmem : peer ∈ device.peers.filter (fun q => decide (q.endpoint = src)) :=
    mem_filter.mpr ⟨hpeer, decide_eq_true hsrc⟩
  have hfilter : device.peers.filter (fun q => decide (q.endpoint = src)) = [peer] := by
    have hreplicate := eq_replicate_of_mem hall
    have hone := nodup_replicate.mp (hreplicate ▸ hnodup.filter _)
    have hpos := length_pos_of_mem hmem
    rw [hreplicate, show (device.peers.filter (fun q => decide (q.endpoint = src))).length = 1 by
      omega]
    rfl
  unfold selectHandshakePeer
  split
  · next q hpeers =>
    rw [hpeers] at hpeer
    rw [mem_singleton.mp hpeer]
  · rw [hfilter]

end

end WgDevice

/-- Two devices that are configured for each other, and what one handshake between them draws at
random. The initiator's session index is not that of another of its sessions. -/
structure Exchange (crypto : Crypto) where
  initiator : WgDevice
  responder : WgDevice
  entry : WgPeer
  peer : WgPeer
  draw : Draw
  answer : Draw
  now : UInt64
  src : Endpoint
  entry_mem : entry ∈ initiator.peers
  entry_key : entry.publicKey = responder.publicKey
  peer_mem : peer ∈ responder.peers
  peer_key : peer.publicKey = initiator.publicKey
  psk : entry.presharedKey = peer.presharedKey
  initiator_key : initiator.publicKey = crypto.publicKey (clamp initiator.privateKey)
  responder_key : responder.publicKey = crypto.publicKey (clamp responder.privateKey)
  endpoint : peer.endpoint = src
  endpoint_only : ∀ q ∈ responder.peers, q.endpoint = src → q = peer
  index_ne : draw.index ≠ 0
  answer_ne : answer.index ≠ 0
  index_unshared : ∀ q ∈ initiator.peers, q ≠ entry → q.session.localIndex ≠ draw.index

/-- One side's packets are meant for the other: it sends under the key and to the index that the
other receives with, and neither has counted a packet. -/
structure Feeds (sender receiver : WgSession) : Prop where
  sender_established : sender.established = true
  receiver_established : receiver.established = true
  key : sender.sendingKey = receiver.receivingKey
  index : sender.remoteIndex = receiver.localIndex
  index_ne : sender.remoteIndex ≠ 0
  unsent : sender.sendingNonce = 0
  unreceived : receiver.receivingNonce = wgNonceUninitialized

namespace Exchange

variable {crypto : Crypto} (x : Exchange crypto)

def transcript : Transcript :=
  Wg.transcript crypto x.initiator x.entry x.draw.seed x.answer.seed

def message : List (BitVec 8) :=
  (x.initiator.initiateHandshake crypto x.entry x.draw x.now).1.toOption.getD []

def waiting : WgDevice :=
  x.initiator.setSession x.entry.publicKey
    (x.initiator.initiateHandshake crypto x.entry x.draw x.now).2

def ZeroMac2 : Prop := ∀ byte ∈ x.message.drop (wgInitiationBodyLen + wgMacLen), byte = 0

theorem agreement (priv : Key) : crypto.x25519 (clamp priv) x.entry.publicKey =
    crypto.x25519 (clamp x.responder.privateKey) (crypto.publicKey (clamp priv)) := by
  rw [x.entry_key, x.responder_key]
  exact crypto.x25519_comm priv x.responder.privateKey

theorem drop_macs (t : Transcript) (index : UInt32) (mac1 mac2 : Tag) :
    (t.initiationBody crypto index ++ (mac1.toList ++ mac2.toList)).drop
      (wgInitiationBodyLen + wgMacLen) = mac2.toList := by
  rw [← append_assoc]
  exact drop_left' (by simp [wgInitiationBodyLen, wgMacLen])

theorem message_eq (hkeyed : x.transcript.Keyed crypto) :
    (x.initiator.initiateHandshake crypto x.entry x.draw x.now).1 = .ok x.message ∧
      ∃ mac2 : Tag, (cookieExpired x.entry.session x.now = true → mac2 = zeroTag) ∧
        x.message = x.transcript.initiationBody crypto x.draw.index ++
          ((mac1 crypto x.responder.publicKey
            (x.transcript.initiationBody crypto x.draw.index)).toList ++ mac2.toList) := by
  obtain ⟨mac2, hcookie, hmessage⟩ := initiateHandshake_message x.now rfl hkeyed
  refine ⟨?_, mac2, hcookie, ?_⟩
  · rw [message, hmessage]
    rfl
  · rw [message, hmessage, ← x.entry_key]
    rfl

theorem zeroMac2_of_cookieExpired (hkeyed : x.transcript.Keyed crypto)
    (hexpired : cookieExpired x.entry.session x.now = true) : x.ZeroMac2 := by
  obtain ⟨-, mac2, hcookie, hmessage⟩ := x.message_eq hkeyed
  intro byte hbyte
  rw [hmessage, drop_macs, hcookie hexpired] at hbyte
  simpa [zeroTag] using hbyte

theorem processInitiation_eq (hkeyed : x.transcript.Keyed crypto) (hmac2 : x.ZeroMac2) :
    ∃ rest : List (BitVec 8), rest.length = 32 ∧
      x.responder.processInitiation crypto x.message x.src x.answer =
        (.ok (x.transcript.responseBody crypto x.answer.index x.draw.index ++ rest),
          x.responder.setSession x.peer.publicKey
            (x.peer.session.answered (x.transcript.keys crypto) x.answer.index x.draw.index)) := by
  obtain ⟨-, mac2, -, hmessage⟩ := x.message_eq hkeyed
  have hzero : ∀ byte ∈ mac2.toList, byte = 0 := by
    intro byte hbyte
    refine hmac2 byte ?_
    rw [hmessage, drop_macs]
    exact hbyte
  have hopened := openInitiation_eq hkeyed x.entry_key x.psk (x.agreement x.draw.seed)
    (x.agreement x.initiator.privateKey) x.index_ne
    (selectHandshakePeer_eq x.peer_mem x.endpoint x.endpoint_only) hzero
  obtain ⟨⟨rest, hrest, hresponse⟩, hsession⟩ := respond_eq x.responder x.src
    { peer := x.peer, senderIndex := x.draw.index, initiatorStatic := x.transcript.static
      re := x.transcript.ephemeral, noise := x.transcript.openedNoise crypto }
      x.answer hkeyed rfl rfl
    (crypto.x25519_comm x.draw.seed x.answer.seed)
    (crypto.x25519_comm x.initiator.privateKey x.answer.seed)
  refine ⟨rest, hrest, ?_⟩
  rw [processInitiation, hmessage, hopened]
  simp only [hresponse, hsession]

theorem mem_waiting {q : WgPeer} (hq : q ∈ x.waiting.peers)
    (hindex : q.session.localIndex = x.draw.index) :
    q = { x.entry with
      session := (x.initiator.initiateHandshake crypto x.entry x.draw x.now).2 } := by
  rcases mem_setSession x.entry_mem hq with hself | ⟨hmem, hkey⟩
  · exact hself
  · have hother : q ≠ x.entry := fun h => hkey (congrArg WgPeer.publicKey h)
    exact absurd hindex (x.index_unshared q hmem hother)

theorem processResponse_eq {rest : List (BitVec 8)} (hkeyed : x.transcript.Keyed crypto)
    (hrest : rest.length = 32) :
    x.waiting.processResponse crypto
        (x.transcript.responseBody crypto x.answer.index x.draw.index ++ rest) =
      (.ok [], x.waiting.setSession x.entry.publicKey
        ((x.initiator.initiateHandshake crypto x.entry x.draw x.now).2.completed
          (x.transcript.keys crypto) x.answer.index)) :=
  Wg.processResponse_eq
    { x.entry with session := (x.initiator.initiateHandshake crypto x.entry x.draw x.now).2 }
    rfl hkeyed rfl (mem_setSession_self _ x.entry_mem) rfl rfl rfl
    (fun _ => x.mem_waiting) x.answer_ne x.index_ne hrest

/-- All calls succeed, and afterwards each side's packets are meant for the other. -/
theorem sessions_agree (hkeyed : x.transcript.Keyed crypto) (hmac2 : x.ZeroMac2) :
    ∃ (reply : List (BitVec 8)) (initiator responder : WgDevice) (entry peer : WgPeer),
      (x.initiator.initiateHandshake crypto x.entry x.draw x.now).1 = .ok x.message ∧
      x.responder.processInitiation crypto x.message x.src x.answer = (.ok reply, responder) ∧
      x.waiting.processResponse crypto reply = (.ok [], initiator) ∧
      initiator.getPeer x.entry.publicKey = some entry ∧
      responder.getPeer x.peer.publicKey = some peer ∧
      Feeds entry.session peer.session ∧ Feeds peer.session entry.session := by
  obtain ⟨rest, hrest, hinitiation⟩ := x.processInitiation_eq hkeyed hmac2
  have hresponse := x.processResponse_eq hkeyed hrest
  have hwaiting := mem_setSession_self
    (x.initiator.initiateHandshake crypto x.entry x.draw x.now).2 x.entry_mem
  exact ⟨_, _, _, _, _, (x.message_eq hkeyed).1, hinitiation, hresponse,
    (getPeer_of_mem (mem_setSession_self _ hwaiting) :),
    (getPeer_of_mem (mem_setSession_self _ x.peer_mem) :),
    ⟨rfl, rfl, rfl, rfl, x.answer_ne, rfl, rfl⟩, ⟨rfl, rfl, rfl, rfl, x.index_ne, rfl, rfl⟩⟩

end Exchange

/-- A toy scheme for witnesses: only the agreement and the AEAD have the laws of the real ones. It
hides nothing, and its hashes are constant. -/
def Crypto.clear : Crypto where
  blake2s _ := Vector.replicate 32 1
  blake2sKeyed _ _ := Vector.replicate 32 1
  hmacBlake2s _ _ := Vector.replicate 32 1
  x25519 priv point := Vector.zipWith (· ^^^ ·) priv point
  aeadEncrypt _ _ plain _ := (plain, zeroTag)
  aeadDecrypt _ _ cipher _ tag := if tag = zeroTag then some cipher else none
  x25519_comm a b := by
    apply Vector.ext
    intro i hi
    simp only [Vector.getElem_zipWith]
    rw [← BitVec.xor_assoc, ← BitVec.xor_assoc, BitVec.xor_comm (clamp a)[i]]
  length_aeadEncrypt _ _ _ _ := rfl
  aeadDecrypt_aeadEncrypt _ _ _ _ := if_pos rfl

theorem Crypto.keyed_clear (t : Transcript) : t.Keyed Crypto.clear := by
  have hkey : (Vector.replicate 32 1 != zeroKey) = true := by decide
  exact ⟨hkey, hkey, hkey⟩

def WgPeer.new (publicKey : Key) (endpoint : Endpoint) : WgPeer :=
  { publicKey := publicKey, presharedKey := zeroKey, endpoint := endpoint
    session := WgSession.fresh }

def soloDevice (privateKey peerKey : Key) (endpoint : Endpoint) : WgDevice :=
  { privateKey := privateKey
    publicKey := Crypto.clear.publicKey (clamp privateKey)
    mac2CookieSecret := zeroKey
    peers := [WgPeer.new (Crypto.clear.publicKey (clamp peerKey)) endpoint]
    distinct := nodup_singleton _ }

def office : Exchange Crypto.clear where
  initiator := soloDevice (Vector.replicate 32 1) (Vector.replicate 32 2) ⟨0x0A000002, 51820⟩
  responder := soloDevice (Vector.replicate 32 2) (Vector.replicate 32 1) ⟨0x0A000001, 51820⟩
  entry := WgPeer.new (Crypto.clear.publicKey (clamp (Vector.replicate 32 2))) ⟨0x0A000002, 51820⟩
  peer := WgPeer.new (Crypto.clear.publicKey (clamp (Vector.replicate 32 1))) ⟨0x0A000001, 51820⟩
  draw := { index := 7, seed := Vector.replicate 32 3 }
  answer := { index := 9, seed := Vector.replicate 32 4 }
  now := 0
  src := ⟨0x0A000001, 51820⟩
  entry_mem := mem_singleton_self _
  entry_key := rfl
  peer_mem := mem_singleton_self _
  peer_key := rfl
  psk := rfl
  initiator_key := rfl
  responder_key := rfl
  endpoint := rfl
  endpoint_only := fun _ hq _ => mem_singleton.mp hq
  index_ne := by decide
  answer_ne := by decide
  index_unshared := fun _ hq hne => absurd (mem_singleton.mp hq) hne

end EchOS.Net.Wg
