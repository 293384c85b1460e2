import EchOS.Lib.Bytes

/-! The WireGuard device: the Noise_IKpsk2 handshake between two peers and the transport packets of
the session it sets up. The primitives it calls (BLAKE2s, X25519, ChaCha20-Poly1305) are a
parameter with the laws the protocol rests on. -/

namespace EchOS.Net.Wg

open Bytes

abbrev Key := Vector (BitVec 8) 32

abbrev Tag := Vector (BitVec 8) 16

def zeroKey : Key := Vector.replicate 32 0

def zeroTag : Tag := Vector.replicate 16 0

inductive WgError
  | invalidPacket
  | noSession
  | peerNotFound
  | invalidIndex
  | replay
  | cryptoError
  | authFailed
  deriving DecidableEq

/-- A call that did not return a value: an error, or a slice copy between unequal lengths. -/
inductive WgFault
  | error (e : WgError)
  | panic
  deriving DecidableEq

def clamp (bytes : Key) : Key :=
  (bytes.set 0 (bytes[0] &&& 248)).set 31 ((bytes[31] &&& 127) ||| 64)

def basePoint : Key := zeroKey.set 0 9

/-- The primitives. Agreement is symmetric for clamped private keys, and decryption undoes
encryption. -/
structure Crypto where
  blake2s : List (BitVec 8) → Key
  blake2sKeyed : List (BitVec 8) → List (BitVec 8) → Key
  hmacBlake2s : List (BitVec 8) → List (BitVec 8) → Key
  x25519 : Key → Key → Key
  aeadEncrypt : Key → Vector (BitVec 8) 12 → List (BitVec 8) → List (BitVec 8) →
    List (BitVec 8) × Tag
  aeadDecrypt : Key → Vector (BitVec 8) 12 → List (BitVec 8) → List (BitVec 8) → Tag →
    Option (List (BitVec 8))
  x25519_comm : ∀ a b, x25519 (clamp a) (x25519 (clamp b) basePoint) =
    x25519 (clamp b) (x25519 (clamp a) basePoint)
  length_aeadEncrypt : ∀ key nonce plain aad,
    (aeadEncrypt key nonce plain aad).1.length = plain.length
  aeadDecrypt_aeadEncrypt : ∀ key nonce plain aad,
    aeadDecrypt key nonce (aeadEncrypt key nonce plain aad).1 aad
      (aeadEncrypt key nonce plain aad).2 = some plain

def Crypto.publicKey (crypto : Crypto) (priv : Key) : Key := crypto.x25519 priv basePoint

def bytesOf (s : String) : List (BitVec 8) := s.toList.map fun c => BitVec.ofNat 8 c.toNat

def wgConstruction : List (BitVec 8) := bytesOf "Noise_IKpsk2_25519_ChaChaPoly_BLAKE2s"

def wgIdentifier : List (BitVec 8) := bytesOf "WireGuard v1 zx2c4 Jason@zx2c4.com"

def wgMac1Label : List (BitVec 8) := bytesOf "mac1----"

def wgNonceUninitialized : UInt64 := 0xFFFFFFFFFFFFFFFF

def wgTransportHeaderLen : ℕ := 16

def wgTransportTagLen : ℕ := 16

def wgInitiationLen : ℕ := 148

def wgInitiationBodyLen : ℕ := 116

def wgMacLen : ℕ := 16

section Noise

variable (crypto : Crypto)

def noiseMac (key data : List (BitVec 8)) : Tag :=
  array 16 ((crypto.blake2sKeyed key data).toList.take 16)

def noiseHkdf2 (ck : Key) (input : List (BitVec 8)) : Key × Key :=
  let prk := (crypto.hmacBlake2s ck.toList input).toList
  let t1 := crypto.hmacBlake2s prk [1]
  let t2 := crypto.hmacBlake2s prk (t1.toList ++ [2])
  (t1, t2)

def noiseHkdf3 (ck : Key) (input : List (BitVec 8)) : Key × Key × Key :=
  let prk := (crypto.hmacBlake2s ck.toList input).toList
  let t1 := crypto.hmacBlake2s prk [1]
  let t2 := crypto.hmacBlake2s prk (t1.toList ++ [2])
  let t3 := crypto.hmacBlake2s prk (t2.toList ++ [3])
  (t1, t2, t3)

def noiseInitChainingKey : Key := crypto.blake2s wgConstruction

def noiseInitHash (responderStatic : Key) : Key :=
  let h := crypto.blake2s ((noiseInitChainingKey crypto).toList ++ wgIdentifier)
  crypto.blake2s (h.toList ++ responderStatic.toList)

def nonceBytes (n : UInt64) : Vector (BitVec 8) 12 := array 12 ([0, 0, 0, 0] ++ toLe 8 n.toNat)

structure NoiseState where
  ck : Key
  h : Key
  k : Key
  n : UInt64
  ps : Key

namespace NoiseState

def new (responderStatic : Key) : NoiseState :=
  { ck := noiseInitChainingKey crypto
    h := noiseInitHash crypto responderStatic
    k := zeroKey
    n := 0
    ps := zeroKey }

variable (noise : NoiseState)

def mixHash (data : List (BitVec 8)) : NoiseState :=
  { noise with h := crypto.blake2s (noise.h.toList ++ data) }

def mixKey (dhOutput : Key) : NoiseState :=
  let r := noiseHkdf2 crypto noise.ck dhOutput.toList
  { noise with ck := r.1, k := r.2, n := 0 }

def mixKeyAndHash (input : Key) : NoiseState :=
  let r := noiseHkdf3 crypto noise.ck input.toList
  { NoiseState.mixHash crypto { noise with ck := r.1 } r.2.1.toList with k := r.2.2, n := 0 }

def hasKey : Bool := noise.k != zeroKey

/-- Ciphertext and tag of an AEAD call with the state's key, counter and hash. -/
def aeadSeal (plaintext : List (BitVec 8)) : List (BitVec 8) :=
  let r := crypto.aeadEncrypt noise.k (nonceBytes noise.n) plaintext noise.h.toList
  r.1 ++ r.2.toList

def absorb (message : List (BitVec 8)) : NoiseState :=
  NoiseState.mixHash crypto { noise with n := noise.n + 1 } message

def encryptAndHash (plaintext : List (BitVec 8)) : List (BitVec 8) × NoiseState :=
  if noise.hasKey then
    let out := noise.aeadSeal crypto plaintext
    (out, noise.absorb crypto out)
  else (plaintext, noise.mixHash crypto plaintext)

def decryptAndHash (ciphertext : List (BitVec 8)) : Option (List (BitVec 8) × NoiseState) :=
  if noise.hasKey then
    if ciphertext.length < 16 then none
    else
      let split := ciphertext.length - 16
      (crypto.aeadDecrypt noise.k (nonceBytes noise.n) (ciphertext.take split) noise.h.toList
        (array 16 (ciphertext.drop split))).map fun plain => (plain, noise.absorb crypto ciphertext)
  else some (ciphertext, noise.mixHash crypto ciphertext)

def split : Key × Key := noiseHkdf2 crypto noise.ck []

end NoiseState

end Noise

structure WgSession where
  localIndex : UInt32
  remoteIndex : UInt32
  sendingKey : Key
  receivingKey : Key
  sendingNonce : UInt64
  receivingNonce : UInt64
  isInitiator : Bool
  established : Bool
  pendingInitiatorPrivate : Key
  handshakePending : Bool
  lastCookie : Tag
  lastCookieTime : UInt64

def WgSession.fresh : WgSession :=
  { localIndex := 0, remoteIndex := 0, sendingKey := zeroKey, receivingKey := zeroKey
    sendingNonce := 0, receivingNonce := wgNonceUninitialized, isInitiator := false
    established := false, pendingInitiatorPrivate := zeroKey, handshakePending := false
    lastCookie := zeroTag, lastCookieTime := 0 }

structure Endpoint where
  ip : UInt32
  port : UInt16
  deriving DecidableEq

structure WgPeer where
  publicKey : Key
  presharedKey : Key
  endpoint : Endpoint
  session : WgSession

/-- A device with its peers in the order of the map that holds them, which has their public keys as
its keys. -/
structure WgDevice where
  privateKey : Key
  publicKey : Key
  mac2CookieSecret : Key
  peers : List WgPeer
  distinct : (peers.map (·.publicKey)).Nodup

structure Draw where
  index : UInt32
  seed : Key

section Transport

variable (crypto : Crypto) (session : WgSession)

def transportHeader (receiverIndex : UInt32) (nonce : UInt64) : List (BitVec 8) :=
  [4, 0, 0, 0] ++ toLe 4 receiverIndex.toNat ++ toLe 8 nonce.toNat

/-- `encrypt_packet` on the peer's session; the counter moves on even when there is no receiver. -/
def encryptPacket (pkt : List (BitVec 8)) : Except WgError (List (BitVec 8)) × WgSession :=
  if !session.established then (.error .noSession, session)
  else
    let nonce := session.sendingNonce
    let session := { session with sendingNonce := nonce + 1 }
    if session.remoteIndex = 0 then (.error .noSession, session)
    else
      let header := transportHeader session.remoteIndex nonce
      let r := crypto.aeadEncrypt session.sendingKey (nonceBytes nonce) pkt header
      (.ok (header ++ r.1 ++ r.2.toList), session)

def decryptPacket (pkt : List (BitVec 8)) : Except WgError (List (BitVec 8)) × WgSession :=
  if pkt.length < wgTransportHeaderLen + wgTransportTagLen ∨ pkt.getD 0 0 ≠ 4 then
    (.error .invalidPacket, session)
  else if !session.established then (.error .noSession, session)
  else
    let receiverIndex := UInt32.ofNat (ofLe (slice pkt 4 8))
    let nonce := UInt64.ofNat (ofLe (slice pkt 8 16))
    if receiverIndex ≠ session.localIndex then (.error .invalidIndex, session)
    else if session.receivingNonce ≠ wgNonceUninitialized ∧ nonce ≤ session.receivingNonce then
      (.error .replay, session)
    else
      let body := pkt.drop wgTransportHeaderLen
      let splitAt := body.length - wgTransportTagLen
      match crypto.aeadDecrypt session.receivingKey (nonceBytes nonce) (body.take splitAt)
        (pkt.take wgTransportHeaderLen) (array 16 (body.drop splitAt)) with
      | none => (.error .cryptoError, session)
      | some decrypted => (.ok decrypted, { session with receivingNonce := nonce })

end Transport

def deriveMac1Key (crypto : Crypto) (responderPublicKey : Key) : Key :=
  crypto.blake2s (wgMac1Label ++ responderPublicKey.toList)

namespace WgDevice

variable (crypto : Crypto) (device : WgDevice)

def deriveCookie (src : Endpoint) (senderIndex : UInt32) : Tag :=
  noiseMac crypto device.mac2CookieSecret.toList
    (Disk.toBe 4 src.ip.toNat ++ Disk.toBe 2 src.port.toNat ++ Disk.toBe 4 senderIndex.toNat)

/-- The only peer, or the only one with the source endpoint. -/
def selectHandshakePeer (src : Endpoint) : Except WgError WgPeer :=
  match device.peers with
  | [peer] => .ok peer
  | peers =>
    match peers.filter fun peer => peer.endpoint = src with
    | [] => .error .peerNotFound
    | [peer] => .ok peer
    | _ => .error .authFailed

/-- A peer's session lives behind its own lock, so replacing it keeps the map as it is. -/
def setSession (publicKey : Key) (session : WgSession) : WgDevice :=
  { device with
    peers := device.peers.map fun peer =>
      if peer.publicKey = publicKey then { peer with session := session } else peer
    distinct := by
      have hkeys : ((fun peer : WgPeer => peer.publicKey) ∘ fun peer : WgPeer =>
          if peer.publicKey = publicKey then { peer with session := session } else peer) =
          (·.publicKey) := by
        funext peer
        by_cases hpeer : peer.publicKey = publicKey <;> simp [hpeer]
      rw [List.map_map, hkeys]
      exact device.distinct }

def getPeer (publicKey : Key) : Option WgPeer :=
  device.peers.find? fun peer => peer.publicKey = publicKey

/-- 120 seconds, in the wrapping arithmetic of the nanosecond clock. -/
def cookieExpired (session : WgSession) (now : UInt64) : Bool :=
  session.lastCookieTime = 0 ∨ now - session.lastCookieTime > 120000000000

def timestamp : List (BitVec 8) := List.replicate 12 0

/-- The first message to a peer, and the peer's session while it waits for the answer. What is
sealed under an all-zero key is too short for the slice that the first MAC is made of. -/
def initiateHandshake (peer : WgPeer) (draw : Draw) (now : UInt64) :
    Except WgFault (List (BitVec 8)) × WgSession :=
  let localPrivate := clamp device.privateKey
  let ePriv := clamp draw.seed
  let ePub := crypto.publicKey ePriv
  let noise := NoiseState.new crypto peer.publicKey
  let noise := noise.mixHash crypto ePub.toList
  let noise := noise.mixKey crypto ePub
  let noise := noise.mixKey crypto (crypto.x25519 ePriv peer.publicKey)
  let static := noise.encryptAndHash crypto (crypto.publicKey localPrivate).toList
  let noise := static.2.mixKey crypto (crypto.x25519 localPrivate peer.publicKey)
  let noise := noise.mixKeyAndHash crypto peer.presharedKey
  let stamp := noise.encryptAndHash crypto timestamp
  let session :=
    { peer.session with
      localIndex := draw.index
      remoteIndex := 0
      sendingNonce := 0
      receivingNonce := wgNonceUninitialized
      isInitiator := true
      established := false
      pendingInitiatorPrivate := ePriv
      handshakePending := true }
  let body := [1, 0, 0, 0] ++ toLe 4 draw.index.toNat ++ ePub.toList ++ static.1 ++ stamp.1
  let mac1 := noiseMac crypto (deriveMac1Key crypto peer.publicKey).toList
    (body.take wgInitiationBodyLen)
  let msg := body ++ mac1.toList
  let mac2 := if cookieExpired session now then zeroTag
    else noiseMac crypto session.lastCookie.toList (msg.take (wgInitiationBodyLen + wgMacLen))
  (if body.length < wgInitiationBodyLen then .error .panic else .ok (msg ++ mac2.toList), session)

def verifyInitiationMac1 (pkt : List (BitVec 8)) : Bool :=
  wgInitiationLen ≤ pkt.length ∧
    (noiseMac crypto (deriveMac1Key crypto device.publicKey).toList
      (pkt.take wgInitiationBodyLen)).toList =
    slice pkt wgInitiationBodyLen (wgInitiationBodyLen + wgMacLen)

/-- A zero tag means that the sender has no cookie. -/
def verifyInitiationMac2 (pkt : List (BitVec 8)) (senderIndex : UInt32) (src : Endpoint) : Bool :=
  let received := slice pkt (wgInitiationBodyLen + wgMacLen) wgInitiationLen
  wgInitiationLen ≤ pkt.length ∧
    (received.all (· = 0) ∨
      (noiseMac crypto (device.deriveCookie crypto src senderIndex).toList
        (pkt.take (wgInitiationBodyLen + wgMacLen))).toList = received)

/-- The responder's Noise state when it opens the static key of a first message. -/
def staticNoise (peer : WgPeer) (pkt : List (BitVec 8)) : NoiseState :=
  let re : Key := array 32 (slice pkt 8 40)
  let noise := { NoiseState.new crypto device.publicKey with ps := peer.presharedKey }
  let noise := noise.mixHash crypto re.toList
  let noise := noise.mixKey crypto re
  noise.mixKey crypto (crypto.x25519 (clamp device.privateKey) re)

/-- The checks before anything is decrypted; they choose the peer. -/
def checkInitiation (pkt : List (BitVec 8)) (src : Endpoint) : Except WgFault (WgPeer × UInt32) :=
  let senderIndex := UInt32.ofNat (ofLe (slice pkt 4 8))
  if pkt.length < wgInitiationLen then .error (.error .invalidPacket)
  else if senderIndex = 0 then .error (.error .invalidPacket)
  else
    match device.selectHandshakePeer src with
    | .error e => .error (.error e)
    | .ok peer =>
      if !device.verifyInitiationMac1 crypto pkt then .error (.error .authFailed)
      else if !device.verifyInitiationMac2 crypto pkt senderIndex src then
        .error (.error .authFailed)
      else .ok (peer, senderIndex)

/-- The initiator's static key. Without a key the 48 bytes come back as they are, and do not fit the
array they are copied to. -/
def openStatic (peer : WgPeer) (pkt : List (BitVec 8)) : Except WgFault (Key × NoiseState) :=
  match (device.staticNoise crypto peer pkt).decryptAndHash crypto (slice pkt 40 88) with
  | none => .error (.error .cryptoError)
  | some (staticBytes, noise) =>
    if staticBytes.length = 32 then .ok (array 32 staticBytes, noise) else .error .panic

def openStamp (pkt : List (BitVec 8)) (initiatorStatic : Key) (noise : NoiseState) :
    Except WgFault NoiseState :=
  let noise := noise.mixKey crypto (crypto.x25519 (clamp device.privateKey) initiatorStatic)
  let noise := noise.mixKeyAndHash crypto noise.ps
  match noise.decryptAndHash crypto (slice pkt 88 116) with
  | none => .error (.error .cryptoError)
  | some (_, noise) => .ok noise

structure Opened where
  peer : WgPeer
  senderIndex : UInt32
  initiatorStatic : Key
  re : Key
  noise : NoiseState

/-- The first half of `process_initiation`: choose the peer, check the MACs, decrypt. -/
def openInitiation (pkt : List (BitVec 8)) (src : Endpoint) : Except WgFault Opened := do
  let checked ← device.checkInitiation crypto pkt src
  let static ← device.openStatic crypto checked.1 pkt
  let noise ← device.openStamp crypto pkt static.1 static.2
  return { peer := checked.1, senderIndex := checked.2, initiatorStatic := static.1
           re := array 32 (slice pkt 8 40), noise := noise }

/-- The second half of `process_initiation`: the answer, and the session it establishes. -/
def respond (opened : Opened) (draw : Draw) (src : Endpoint) :
    Except WgFault (List (BitVec 8)) × WgSession :=
  let ePriv := clamp draw.seed
  let ePub := crypto.publicKey ePriv
  let noise := opened.noise.mixHash crypto ePub.toList
  let noise := noise.mixKey crypto ePub
  let noise := noise.mixKey crypto (crypto.x25519 ePriv opened.re)
  let noise := noise.mixKey crypto (crypto.x25519 ePriv opened.initiatorStatic)
  let noise := noise.mixKeyAndHash crypto noise.ps
  let empty := noise.encryptAndHash crypto []
  let keys := empty.2.split crypto
  let session :=
    { opened.peer.session with
      remoteIndex := opened.senderIndex
      localIndex := draw.index
      sendingKey := keys.2
      receivingKey := keys.1
      sendingNonce := 0
      receivingNonce := wgNonceUninitialized
      isInitiator := false
      established := true
      pendingInitiatorPrivate := zeroKey
      handshakePending := false }
  let body := [2, 0, 0, 0] ++ toLe 4 draw.index.toNat ++ toLe 4 opened.senderIndex.toNat ++
    ePub.toList ++ empty.1
  let mac1 := noiseMac crypto (deriveMac1Key crypto opened.initiatorStatic).toList (body.take 60)
  let msg := body ++ mac1.toList
  let cookie := device.deriveCookie crypto src draw.index
  let mac2 := if cookie = zeroTag then zeroTag else noiseMac crypto cookie.toList (msg.take 76)
  (if body.length < 60 then .error .panic else .ok (msg ++ mac2.toList), session)

def processInitiation (pkt : List (BitVec 8)) (src : Endpoint) (draw : Draw) :
    Except WgFault (List (BitVec 8)) × WgDevice :=
  match device.openInitiation crypto pkt src with
  | .error fault => (.error fault, device)
  | .ok opened =>
    let r := device.respond crypto opened draw src
    (r.1, device.setSession opened.peer.publicKey r.2)

/-- Message one once more, from what the session kept of it, and then the answer's tokens. -/
def responseNoise (peer : WgPeer) (re : Key) : NoiseState :=
  let localPrivate := clamp device.privateKey
  let ePriv := clamp peer.session.pendingInitiatorPrivate
  let ePub := crypto.publicKey ePriv
  let noise := { NoiseState.new crypto peer.publicKey with ps := peer.presharedKey }
  let noise := noise.mixHash crypto ePub.toList
  let noise := noise.mixKey crypto ePub
  let noise := noise.mixKey crypto (crypto.x25519 ePriv peer.publicKey)
  let noise := noise.absorb crypto (noise.aeadSeal crypto (crypto.publicKey localPrivate).toList)
  let sPriv := clamp localPrivate
  let noise := noise.mixKey crypto (crypto.x25519 sPriv peer.publicKey)
  let noise := noise.mixKeyAndHash crypto peer.presharedKey
  let noise := noise.absorb crypto (noise.aeadSeal crypto timestamp)
  let noise := noise.mixHash crypto re.toList
  let noise := noise.mixKey crypto re
  let noise := noise.mixKey crypto (crypto.x25519 ePriv re)
  let noise := noise.mixKey crypto (crypto.x25519 sPriv re)
  noise.mixKeyAndHash crypto noise.ps

def processResponse (pkt : List (BitVec 8)) : Except WgFault (List (BitVec 8)) × WgDevice :=
  let senderIndex := UInt32.ofNat (ofLe (slice pkt 4 8))
  let receiverIndex := UInt32.ofNat (ofLe (slice pkt 8 12))
  if pkt.length < 92 then (.error (.error .invalidPacket), device)
  else if senderIndex = 0 ∨ receiverIndex = 0 then (.error (.error .invalidPacket), device)
  else
    match device.peers.find? fun peer => peer.session.localIndex = receiverIndex ∧
        peer.session.isInitiator ∧ peer.session.handshakePending with
    | none => (.error (.error .peerNotFound), device)
    | some peer =>
      match (device.responseNoise crypto peer (array 32 (slice pkt 12 44))).decryptAndHash crypto
        (slice pkt 44 60) with
      | none => (.error (.error .cryptoError), device)
      | some (_, noise) =>
        let keys := noise.split crypto
        let session :=
          { peer.session with
            remoteIndex := senderIndex
            sendingKey := keys.1
            receivingKey := keys.2
            sendingNonce := 0
            receivingNonce := wgNonceUninitialized
            pendingInitiatorPrivate := zeroKey
            handshakePending := false
            established := true }
        (.ok [], device.setSession peer.publicKey session)

end WgDevice

end EchOS.Net.Wg
