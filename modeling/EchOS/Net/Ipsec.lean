import EchOS.Lib.Bytes

/-! IPsec as in `net/ipsec.rs`: security associations, policies, and the ESP packets that a manager
sends and receives. -/

namespace EchOS.Net.Ipsec

inductive IpsecError
  | saNotFound
  | policyNotFound
  | invalidPacket
  | invalidKey
  | weakCipherDisabled
  | authFailed
  | replayAttack
  | encryptionFailed
  | decryptionFailed
  deriving DecidableEq

def ipsecEncNull : BitVec 16 := 0
def ipsecEncAesCbc : BitVec 16 := 3
def ipsecAuthHmacMd5 : BitVec 16 := 1
def ipsecAuthHmacSha1 : BitVec 16 := 2
def ipsecAuthHmacSha256 : BitVec 16 := 3
def ipsecAuthHmacSha384 : BitVec 16 := 4
def ipsecAuthHmacSha512 : BitVec 16 := 5
def ipsecAuthAesXcbc : BitVec 16 := 6

inductive Digest
  | md5
  | sha1
  | sha256
  | sha384
  | sha512
  deriving DecidableEq

def Digest.size : Digest → ℕ
  | .md5 => 16
  | .sha1 => 20
  | .sha256 => 32
  | .sha384 => 48
  | .sha512 => 64

structure SaStats where
  packetsIn : ℕ
  bytesIn : ℕ
  authErrors : ℕ
  replayErrors : ℕ
  deriving DecidableEq

structure SecurityAssociation where
  spi : BitVec 32
  encAlg : BitVec 16
  encKey : List (BitVec 8)
  authAlg : BitVec 16
  authKey : List (BitVec 8)
  replayWindow : BitVec 32
  replayBitmap : BitVec 64
  lastSeq : BitVec 32
  stats : SaStats
  deriving DecidableEq

structure SecurityAssociation.Agree (a b : SecurityAssociation) : Prop where
  encAlg : a.encAlg = b.encAlg
  encKey : a.encKey = b.encKey
  authAlg : a.authAlg = b.authAlg
  authKey : a.authKey = b.authKey

/-- An entry of the registry of authentication algorithms. It is given the whole association, and
goes by its algorithms and keys. -/
structure AuthEntry where
  icvLen : ℕ
  calculate : SecurityAssociation → List (BitVec 8) → Except IpsecError (List (BitVec 8))
  agree : ∀ a b, a.Agree b → calculate b = calculate a

/-- What the manager calls: hashes, the AES-XCBC code for a key of sixteen bytes, ciphers other than
the null cipher, which are given the association and random bytes, and registered algorithms. -/
structure Crypto where
  hash : Digest → List (BitVec 8) → List (BitVec 8)
  length_hash : ∀ digest message, (hash digest message).length = digest.size
  aesXcbc : List (BitVec 8) → List (BitVec 8) → Vector (BitVec 8) 12
  encrypt : SecurityAssociation → (entropy pkt : List (BitVec 8)) →
    Except IpsecError (List (BitVec 8))
  decrypt : SecurityAssociation → List (BitVec 8) → Except IpsecError (List (BitVec 8))
  decrypt_agree : ∀ a b, a.Agree b → decrypt b = decrypt a
  lookupAuthRegistry : BitVec 16 → Option AuthEntry

namespace SecurityAssociation

def new (spi : BitVec 32) : SecurityAssociation where
  spi := spi
  encAlg := ipsecEncAesCbc
  encKey := []
  authAlg := ipsecAuthHmacSha256
  authKey := []
  replayWindow := 64
  replayBitmap := 0
  lastSeq := 0
  stats := ⟨0, 0, 0, 0⟩

/-- The bit of a sequence number so far behind the last one. A shift is by the amount modulo the
width of the bitmap. -/
def replayMask (diff : BitVec 32) : BitVec 64 := (1 : BitVec 64) <<< (diff.toNat % 64)

/-- Whether a sequence number is taken, and the window after it. -/
def checkReplay (sa : SecurityAssociation) (seq : BitVec 32) : Bool × SecurityAssociation :=
  let last := sa.lastSeq
  if last < seq then
    let diff := seq - last
    let bitmap := if diff < 64 then (sa.replayBitmap <<< diff.toNat) ||| 1 else 1
    (true, { sa with replayBitmap := bitmap, lastSeq := seq })
  else
    let diff := last - seq
    if sa.replayWindow ≤ diff then (false, sa)
    else
      let mask := replayMask diff
      if sa.replayBitmap &&& mask ≠ 0 then (false, sa)
      else (true, { sa with replayBitmap := sa.replayBitmap ||| mask })

def encrypt (crypto : Crypto) (sa : SecurityAssociation) (entropy pkt : List (BitVec 8)) :
    Except IpsecError (List (BitVec 8)) :=
  if sa.encAlg = ipsecEncNull then .ok pkt else crypto.encrypt sa entropy pkt

def decrypt (crypto : Crypto) (sa : SecurityAssociation) (pkt : List (BitVec 8)) :
    Except IpsecError (List (BitVec 8)) :=
  if sa.encAlg = ipsecEncNull then .ok pkt else crypto.decrypt sa pkt

end SecurityAssociation

variable (crypto : Crypto)

/-- A key, hashed if it is longer than a block, and filled up with zeros. -/
def workingKey (digest : Digest) (key : List (BitVec 8)) (blockSize : ℕ) : List (BitVec 8) :=
  let key := if blockSize < key.length then crypto.hash digest key else key
  key.take blockSize ++ List.replicate (blockSize - key.length) 0

def hmacWithPad (digest : Digest) (key message : List (BitVec 8))
    (blockSize : ℕ) : List (BitVec 8) :=
  let working := workingKey crypto digest key blockSize
  let inner := working.map (0x36 ^^^ ·)
  let outer := working.map (0x5c ^^^ ·)
  crypto.hash digest (outer ++ crypto.hash digest (inner ++ message))

def defaultAuthIcvLen (authKey : List (BitVec 8)) : ℕ :=
  if 64 ≤ authKey.length then 32
  else if 48 ≤ authKey.length then 24
  else if 16 ≤ authKey.length then 16
  else 12

def calculateDefaultAuthIcv (authKey data : List (BitVec 8)) : List (BitVec 8) :=
  if 64 ≤ authKey.length then hmacWithPad crypto .sha512 authKey data 128
  else if 48 ≤ authKey.length then hmacWithPad crypto .sha384 authKey data 128
  else if 16 ≤ authKey.length then hmacWithPad crypto .sha256 authKey data 64
  else hmacWithPad crypto .sha1 authKey data 64

namespace SecurityAssociation

def authKeyMaterial (sa : SecurityAssociation) : List (BitVec 8) :=
  if sa.authKey.isEmpty then sa.encKey else sa.authKey

def icvLen (crypto : Crypto) (sa : SecurityAssociation) : ℕ :=
  if sa.authAlg = ipsecAuthHmacSha1 then 12
  else if sa.authAlg = ipsecAuthHmacSha256 then 16
  else if sa.authAlg = ipsecAuthHmacSha384 then 24
  else if sa.authAlg = ipsecAuthHmacSha512 then 32
  else if sa.authAlg = ipsecAuthAesXcbc then 12
  else
    match crypto.lookupAuthRegistry sa.authAlg with
    | some entry => entry.icvLen
    | none => defaultAuthIcvLen sa.authKeyMaterial

/-- The code of a registered algorithm, or of the default one if there is none or it fails. -/
def registeredIcv (sa : SecurityAssociation) (data : List (BitVec 8)) : List (BitVec 8) :=
  match crypto.lookupAuthRegistry sa.authAlg with
  | none => calculateDefaultAuthIcv crypto sa.authKeyMaterial data
  | some entry =>
    match entry.calculate sa data with
    | .ok icv => icv
    | .error _ => calculateDefaultAuthIcv crypto sa.authKeyMaterial data

/-- A key that is too short for AES-XCBC gives an empty code. -/
def calculateIcv (sa : SecurityAssociation) (data : List (BitVec 8)) : List (BitVec 8) :=
  let key := sa.authKeyMaterial
  if sa.authAlg = ipsecAuthAesXcbc then
    if 16 ≤ key.length then (crypto.aesXcbc (key.take 16) data).toList else []
  else
    let full :=
      if sa.authAlg = ipsecAuthHmacMd5 then hmacWithPad crypto .md5 key data 64
      else if sa.authAlg = ipsecAuthHmacSha1 then hmacWithPad crypto .sha1 key data 64
      else if sa.authAlg = ipsecAuthHmacSha256 then hmacWithPad crypto .sha256 key data 64
      else if sa.authAlg = ipsecAuthHmacSha384 then hmacWithPad crypto .sha384 key data 128
      else if sa.authAlg = ipsecAuthHmacSha512 then hmacWithPad crypto .sha512 key data 128
      else sa.registeredIcv crypto data
    full.take (sa.icvLen crypto)

def verifyIcv (sa : SecurityAssociation) (data icv : List (BitVec 8)) : Bool :=
  sa.calculateIcv crypto data = icv

end SecurityAssociation

inductive PolicyAction
  | discard
  | none
  | ipsec
  deriving DecidableEq

structure Selector where
  srcIp : BitVec 32
  dstIp : BitVec 32
  proto : BitVec 8
  srcPort : BitVec 16
  dstPort : BitVec 16
  deriving DecidableEq

structure SecurityPolicy where
  srcIp : BitVec 32
  srcMask : BitVec 32
  dstIp : BitVec 32
  dstMask : BitVec 32
  proto : BitVec 8
  srcPort : BitVec 16 × BitVec 16
  dstPort : BitVec 16 × BitVec 16
  action : PolicyAction
  saSpi : Option (BitVec 32)
  deriving DecidableEq

def SecurityPolicy.matches (policy : SecurityPolicy) (sel : Selector) : Bool :=
  if sel.srcIp &&& policy.srcMask ≠ policy.srcIp &&& policy.srcMask then false
  else if sel.dstIp &&& policy.dstMask ≠ policy.dstIp &&& policy.dstMask then false
  else if policy.proto ≠ 0 ∧ sel.proto ≠ policy.proto then false
  else if sel.srcPort < policy.srcPort.1 ∨ policy.srcPort.2 < sel.srcPort then false
  else if sel.dstPort < policy.dstPort.1 ∨ policy.dstPort.2 < sel.dstPort then false
  else true

structure IpsecStats where
  packetsEncrypted : ℕ
  packetsDecrypted : ℕ
  authFailures : ℕ
  replayFailures : ℕ
  deriving DecidableEq

structure IpsecManager where
  sas : BitVec 32 → Option SecurityAssociation
  spsOutbound : List SecurityPolicy
  enabled : Bool
  stats : IpsecStats

namespace IpsecManager

def findOutboundPolicy (manager : IpsecManager) (sel : Selector) : Option SecurityPolicy :=
  manager.spsOutbound.find? (·.matches sel)

def setSa (manager : IpsecManager) (spi : BitVec 32) (sa : SecurityAssociation) : IpsecManager :=
  { manager with sas := Function.update manager.sas spi (some sa) }

def outboundSa (manager : IpsecManager) (sel : Selector) :
    Option (BitVec 32 × SecurityAssociation) := do
  let policy ← manager.findOutboundPolicy sel
  if policy.action = .ipsec then
    let spi ← policy.saSpi
    let sa ← manager.sas spi
    pure (spi, sa)
  else none

/-- The sequence number of a packet is the last one that was received. -/
def processOutbound (manager : IpsecManager) (entropy pkt : List (BitVec 8))
    (sel : Selector) : Except IpsecError (List (BitVec 8)) × IpsecManager :=
  if manager.enabled = false then (.ok pkt, manager)
  else
    match manager.outboundSa sel with
    | none => (.ok pkt, manager)
    | some (spi, sa) =>
      match sa.encrypt crypto entropy pkt with
      | .error e => (.error e, manager)
      | .ok encrypted =>
        let icv := sa.calculateIcv crypto encrypted
        let espPkt := Bytes.toBe 4 spi.toNat ++ Bytes.toBe 4 sa.lastSeq.toNat ++ encrypted ++ icv
        let stats := manager.stats
        (.ok espPkt,
          { manager with stats := { stats with packetsEncrypted := stats.packetsEncrypted + 1 } })

def receive (manager : IpsecManager) (spi seq : BitVec 32)
    (sa : SecurityAssociation) (encrypted recvIcv : List (BitVec 8)) :
    Except IpsecError (List (BitVec 8)) × IpsecManager :=
  let stats := manager.stats
  if sa.verifyIcv crypto encrypted recvIcv = false then
    let sa := { sa with stats := { sa.stats with authErrors := sa.stats.authErrors + 1 } }
    (.error .authFailed,
      { manager.setSa spi sa with stats := { stats with authFailures := stats.authFailures + 1 } })
  else
    match sa.checkReplay seq with
    | (false, sa) =>
      let sa := { sa with stats := { sa.stats with replayErrors := sa.stats.replayErrors + 1 } }
      (.error .replayAttack,
        { manager.setSa spi sa with
          stats := { stats with replayFailures := stats.replayFailures + 1 } })
    | (true, sa) =>
      match sa.decrypt crypto encrypted with
      | .error e => (.error e, manager.setSa spi sa)
      | .ok decrypted =>
        let sa := { sa with stats := { sa.stats with
          packetsIn := sa.stats.packetsIn + 1, bytesIn := sa.stats.bytesIn + decrypted.length } }
        (.ok decrypted,
          { manager.setSa spi sa with
            stats := { stats with packetsDecrypted := stats.packetsDecrypted + 1 } })

def processInbound (manager : IpsecManager) (pkt : List (BitVec 8)) :
    Except IpsecError (List (BitVec 8)) × IpsecManager :=
  if manager.enabled = false then (.ok pkt, manager)
  else if pkt.length < 8 then (.error .invalidPacket, manager)
  else
    let spi := BitVec.ofNat 32 (Bytes.ofBe (Bytes.slice pkt 0 4))
    let seq := BitVec.ofNat 32 (Bytes.ofBe (Bytes.slice pkt 4 8))
    match manager.sas spi with
    | none => (.error .saNotFound, manager)
    | some sa =>
      let icvLen := sa.icvLen crypto
      if pkt.length < 8 + icvLen then (.error .invalidPacket, manager)
      else
        let encryptedEnd := pkt.length - icvLen
        let encrypted := Bytes.slice pkt 8 encryptedEnd
        let recvIcv := pkt.drop encryptedEnd
        if encrypted.isEmpty then (.error .invalidPacket, manager)
        else manager.receive crypto spi seq sa encrypted recvIcv

end IpsecManager

end EchOS.Net.Ipsec
