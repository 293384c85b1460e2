import EchOS.Lib.Bytes
import EchOS.Lib.Fallible

/-! The verifier of update metadata in `security/tuf.rs`: the binary format and the checks of
the four roles. A reader works on the bytes that are left, and a map that is only read by key
is a function. -/

namespace EchOS.Security.Tuf

open Fallible

abbrev KeyId := Vector (BitVec 8) 32

def tufMagic : List (BitVec 8) := [0x54, 0x55, 0x46, 0x00]
def formatVersion : BitVec 8 := 1
def specVersionMajor : BitVec 16 := 1
def specVersionMinor : BitVec 16 := 0
def maxMetadataDownloadSize : ℕ := 64 * 1024
def maxTargetFileSize : BitVec 64 := 256 * 1024 * 1024
def maxVersionJump : BitVec 64 := 1000000

inductive TufRole
  | root
  | timestamp
  | snapshot
  | targets
  deriving DecidableEq

def TufRole.fromU8 (v : BitVec 8) : Except String TufRole :=
  if v = 0 then .ok .root
  else if v = 1 then .ok .timestamp
  else if v = 2 then .ok .snapshot
  else if v = 3 then .ok .targets
  else .error "unknown TUF role"

inductive KeyType
  | ed25519
  | rsa
  deriving DecidableEq

def KeyType.fromU8 (v : BitVec 8) : Except String KeyType :=
  if v = 0 then .ok .ed25519
  else if v = 1 then .ok .rsa
  else .error "unknown key type"

structure TufKey where
  keyid : KeyId
  keyType : KeyType
  publicKey : List (BitVec 8)
  deriving DecidableEq

structure TufSignature where
  keyid : KeyId
  sig : List (BitVec 8)
  deriving DecidableEq

structure TufMetadata where
  role : TufRole
  specVersionMajor : BitVec 16
  specVersionMinor : BitVec 16
  consistentSnapshot : Bool
  version : BitVec 64
  expires : BitVec 64
  signatures : List TufSignature
  keys : KeyId → Option TufKey
  roleThresholds : TufRole → Option (BitVec 8)
  payload : List (BitVec 8)

structure Crypto where
  sha256 : List (BitVec 8) → KeyId
  ed25519Verify : (publicKey message signature : List (BitVec 8)) → Bool
  rsaPkcs1Verify : (publicKey signature message : List (BitVec 8)) → Bool

abbrev Read := StateT (List (BitVec 8)) (Except String)

def readSlice (len : ℕ) : Read (List (BitVec 8)) := fun rest =>
  if rest.length < len then .error "metadata truncated"
  else .ok (rest.take len, rest.drop len)

def readLe (bytes : ℕ) : Read (BitVec (8 * bytes)) := do
  return BitVec.ofNat _ (Bytes.ofLe (← readSlice bytes))

def readU8 : Read (BitVec 8) := readLe 1
def readU16Le : Read (BitVec 16) := readLe 2
def readU32Le : Read (BitVec 32) := readLe 4
def readU64Le : Read (BitVec 64) := readLe 8

def readMany {α : Type} (item : Read α) : ℕ → Read (List α)
  | 0 => return []
  | count + 1 => do
    let a ← item
    return a :: (← readMany item count)

/-- Later entries take the place of earlier ones with the same key. -/
def collect {κ α : Type} [DecidableEq κ] (entries : List (κ × α)) : κ → Option α :=
  entries.foldl (fun map entry => Function.update map entry.1 (some entry.2)) fun _ => none

section

variable (crypto : Crypto)

def canonicalKeyEncoding (keyType : KeyType) (publicKey : List (BitVec 8)) : List (BitVec 8) :=
  (match keyType with
    | .ed25519 => 0
    | .rsa => 1) :: (Bytes.toLe 2 publicKey.length ++ publicKey)

def computeKeyid (keyType : KeyType) (publicKey : List (BitVec 8)) : KeyId :=
  crypto.sha256 (canonicalKeyEncoding keyType publicKey)

def readKeyId : Read KeyId := do
  return Bytes.array 32 (← readSlice 32)

def readKey (mismatch : String) : Read (KeyId × TufKey) := do
  let keyid ← readKeyId
  let keyType ← KeyType.fromU8 (← readU8)
  let pubLen ← readU16Le
  let publicKey ← readSlice pubLen.toNat
  refuse (keyid ≠ computeKeyid crypto keyType publicKey) mismatch
  return (keyid, ⟨keyid, keyType, publicKey⟩)

def readSignature : Read TufSignature := do
  let keyid ← readKeyId
  let sigLen ← readU16Le
  return ⟨keyid, ← readSlice sigLen.toNat⟩

def readThreshold (role : TufRole) : Read (TufRole × BitVec 8) := do
  let threshold ← readU8
  refuse (threshold = 0) "role threshold must be >= 1"
  return (role, threshold)

def readThresholds (role : TufRole) : Read (List (TufRole × BitVec 8)) :=
  if role = .root then
    [.root, .timestamp, .snapshot, .targets].mapM readThreshold
  else return []

def readBody (role : TufRole) :
    Read (List (KeyId × TufKey) × List TufSignature × List (TufRole × BitVec 8)) := do
  let keyCount ← readU32Le
  let keys ← readMany
    (readKey crypto "keyid mismatch: metadata keyid does not match computed keyid") keyCount.toNat
  let sigCount ← readU32Le
  let signatures ← readMany readSignature sigCount.toNat
  return (keys, signatures, ← readThresholds role)

def headerLe (data : List (BitVec 8)) (a b w : ℕ) : BitVec w :=
  BitVec.ofNat w (Bytes.ofLe (Bytes.slice data a b))

def parseMetadata (data : List (BitVec 8)) : Except String TufMetadata := do
  refuse (data.length < 27) "metadata too short"
  refuse (Bytes.slice data 0 4 ≠ tufMagic) "invalid TUF magic"
  refuse (data.getD 4 0 ≠ formatVersion) "unsupported TUF format version"
  let role ← TufRole.fromU8 (data.getD 5 0)
  let version := headerLe data 11 19 64
  refuse (version = 0) "metadata version must be > 0"
  let ((keys, signatures, thresholds), payload) ← readBody crypto role (data.drop 27)
  return {
    role := role
    specVersionMajor := headerLe data 6 8 16
    specVersionMinor := headerLe data 8 10 16
    consistentSnapshot := data.getD 10 0 ≠ 0
    version := version
    expires := headerLe data 19 27 64
    signatures := signatures
    keys := collect keys
    roleThresholds := collect thresholds
    payload := payload }

end

structure TargetFile where
  length : BitVec 64
  hashes : String → Option (List (BitVec 8))

structure DelegationRole where
  name : String
  keyids : List KeyId
  threshold : BitVec 8
  paths : Option (List String)
  pathHashPrefixes : Option (List String)
  terminating : Bool

structure DelegationInfo where
  keys : KeyId → Option TufKey
  roles : List DelegationRole

structure TargetsInfo where
  files : String → Option TargetFile
  delegations : Option DelegationInfo

structure SnapshotMetaEntry where
  version : BitVec 64
  length : Option (BitVec 64)
  hashes : String → Option (List (BitVec 8))

def fromUtf8 (bytes : List (BitVec 8)) : Option String :=
  String.fromUTF8? ⟨(bytes.map UInt8.ofBitVec).toArray⟩

def readText (message : String) (len : ℕ) : Read String := do
  match fromUtf8 (← readSlice len) with
  | some text => return text
  | none => throw message

def readHash : Read (String × List (BitVec 8)) := do
  let nameLen ← readU8
  let name ← readText "hash name not utf8" nameLen.toNat
  let hashLen ← readU8
  return (name, ← readSlice hashLen.toNat)

/-- A number of bytes that stands for no limit when it is zero. -/
def optionalLength (length : BitVec 64) : Option (BitVec 64) :=
  if length = 0 then none else some length

def readTarget : Read (String × TargetFile) := do
  let nameLen ← readU16Le
  let name ← readText "target name not utf8" nameLen.toNat
  let length ← readU64Le
  let hashCount ← readU8
  let hashes ← readMany readHash hashCount.toNat
  refuse (maxTargetFileSize < length) "target file size exceeds maximum allowed"
  return (name, ⟨length, collect hashes⟩)

def readPath : Read String := do
  let len ← readU16Le
  readText "delegation path not utf8" len.toNat

def readHashPrefix : Read String := do
  let len ← readU8
  readText "delegation prefix not utf8" len.toNat

def readOptional {α : Type} (item : Read α) : Read (Option (List α)) := do
  let present ← readU8
  if present ≠ 0 then
    let count ← readU32Le
    return some (← readMany item count.toNat)
  else return none

def readDelegationRole : Read DelegationRole := do
  let nameLen ← readU16Le
  let name ← readText "delegation role name not utf8" nameLen.toNat
  let keyidCount ← readU32Le
  let keyids ← readMany readKeyId keyidCount.toNat
  let threshold ← readU8
  refuse (threshold = 0) "delegation role threshold must be >= 1"
  let paths ← readOptional readPath
  let pathHashPrefixes ← readOptional readHashPrefix
  refuse (paths = none ∧ pathHashPrefixes = none)
    "delegation role must specify either paths or path_hash_prefixes"
  refuse (paths ≠ none ∧ pathHashPrefixes ≠ none)
    "delegation role must not specify both paths and path_hash_prefixes"
  let terminating ← readU8
  return ⟨name, keyids, threshold, paths, pathHashPrefixes, terminating ≠ 0⟩

section

variable (crypto : Crypto)

def parseDelegations : Read DelegationInfo := do
  let keyCount ← readU32Le
  let keys ← readMany (readKey crypto "delegation keyid mismatch") keyCount.toNat
  let roleCount ← readU32Le
  return ⟨collect keys, ← readMany readDelegationRole roleCount.toNat⟩

def readTargets : Read TargetsInfo := do
  let fileCount ← readU32Le
  let files ← readMany readTarget fileCount.toNat
  if (← get) = [] then return ⟨collect files, none⟩
  else
    let hasDelegations ← readU8
    if hasDelegations ≠ 0 then return ⟨collect files, some (← parseDelegations crypto)⟩
    else return ⟨collect files, none⟩

def parseTargetsPayload (data : List (BitVec 8)) : Except String TargetsInfo := do
  let (info, _) ← readTargets crypto data
  return info

end

def readSnapshotEntry : Read (String × SnapshotMetaEntry) := do
  let nameLen ← readU16Le
  let name ← readText "snapshot meta name not utf8" nameLen.toNat
  let version ← readU64Le
  let length ← readU64Le
  let hashCount ← readU8
  let hashes ← readMany readHash hashCount.toNat
  return (name, ⟨version, optionalLength length, collect hashes⟩)

def readSnapshot : Read (List (String × SnapshotMetaEntry)) := do
  let metaCount ← readU32Le
  readMany readSnapshotEntry metaCount.toNat

def parseSnapshotPayload (data : List (BitVec 8)) :
    Except String (String → Option SnapshotMetaEntry) := do
  let (entries, _) ← readSnapshot data
  return collect entries

def parseTimestampPayload (data : List (BitVec 8)) :
    Except String (BitVec 64 × Option (BitVec 64)) := do
  refuse (data.length < 8) "timestamp payload too short"
  return (headerLe data 0 8 64,
    if 16 ≤ data.length then optionalLength (headerLe data 8 16 64) else none)

structure VerifiedRole where
  version : BitVec 64
  expires : BitVec 64
  deriving DecidableEq

structure TufVerifier where
  root : TufMetadata
  latestTimestamp : Option VerifiedRole
  latestSnapshot : Option VerifiedRole
  latestTargets : Option VerifiedRole
  latestTargetsInfo : Option TargetsInfo
  snapshotMetaVersions : String → Option (BitVec 64)
  snapshotMetaLengths : String → Option (BitVec 64)
  updateStartTime : BitVec 64

def snapshotName : String := "snapshot.json"
def targetsName : String := "targets.json"

def validateSpecVersion (metadata : TufMetadata) : Except String Unit := do
  refuse (metadata.specVersionMajor ≠ specVersionMajor) "spec major version mismatch"
  refuse (metadata.specVersionMinor < specVersionMinor) "spec minor version too old"

section

variable (crypto : Crypto)

def verifySignature (key : TufKey) (sig payload : List (BitVec 8)) : Bool :=
  match key.keyType with
  | .ed25519 =>
    if key.publicKey.length ≠ 32 ∨ sig.length ≠ 64 then false
    else crypto.ed25519Verify key.publicKey payload sig
  | .rsa =>
    if key.publicKey = [] ∨ sig = [] then false
    else crypto.rsaPkcs1Verify key.publicKey sig payload

/-- One signature: a key counts once, and only with a signature that verifies. -/
def countSignature (keyFor : KeyId → Option TufKey) (payload : List (BitVec 8))
    (s : ℕ × List KeyId) (signature : TufSignature) : ℕ × List KeyId :=
  if signature.keyid ∈ s.2 then s
  else
    match keyFor signature.keyid with
    | none => s
    | some key =>
      if verifySignature crypto key signature.sig payload then (s.1 + 1, signature.keyid :: s.2)
      else s

def validCount (keyFor : KeyId → Option TufKey) (metadata : TufMetadata) : ℕ :=
  (metadata.signatures.foldl (countSignature crypto keyFor metadata.payload) (0, [])).1

/-- How many keys have to sign for a role; a role without a threshold needs one. -/
def TufMetadata.threshold (root : TufMetadata) (role : TufRole) : ℕ :=
  ((root.roleThresholds role).getD 1).toNat

namespace TufVerifier

def new (now : BitVec 64) (rootMetadata : List (BitVec 8)) : Except String TufVerifier := do
  let root ← parseMetadata crypto rootMetadata
  refuse (root.role ≠ .root) "root metadata must have Root role"
  validateSpecVersion root
  return ⟨root, none, none, none, none, fun _ => none, fun _ => none, now⟩

variable (s : TufVerifier)

/-- The keys are those the metadata itself lists, as far as the root has them too. -/
def verifySignatures (metadata : TufMetadata) (role : TufRole) : Except String Unit :=
  refuse (validCount crypto
    (fun id => if (s.root.keys id).isSome then metadata.keys id else none) metadata <
      s.root.threshold role) "insufficient valid signatures"

def verifySignaturesWithKeys (metadata : TufMetadata) (role : TufRole)
    (keySet : KeyId → Option TufKey) : Except String Unit :=
  refuse (validCount crypto keySet metadata < s.root.threshold role)
    "insufficient valid signatures for key set"

def updateRoot (newRootData : List (BitVec 8)) : Except String TufVerifier := do
  let newRoot ← parseMetadata crypto newRootData
  refuse (newRoot.role ≠ .root) "expected Root role in root update"
  validateSpecVersion newRoot
  refuse (newRoot.version ≠ s.root.version + 1) "root version must be exactly current version + 1"
  s.verifySignaturesWithKeys crypto newRoot .root s.root.keys
  s.verifySignaturesWithKeys crypto newRoot .root newRoot.keys
  return { s with root := newRoot }

/-- Neither below the version accepted last nor far above it. -/
def checkVersion (prev : Option VerifiedRole) (version : BitVec 64)
    (rollback fastForward : String) : Except String Unit :=
  match prev with
  | none => return ()
  | some prev => do
    refuse (version < prev.version) rollback
    refuse (prev.version + maxVersionJump < version) fastForward

def acceptTimestamp (metadata : TufMetadata) (named : BitVec 64 × Option (BitVec 64)) :
    TufVerifier :=
  { s with
    latestTimestamp := some ⟨metadata.version, metadata.expires⟩
    snapshotMetaVersions := Function.update s.snapshotMetaVersions snapshotName named.1
    snapshotMetaLengths := match named.2 with
      | some length => Function.update s.snapshotMetaLengths snapshotName length
      | none => s.snapshotMetaLengths }

def verifyTimestamp (data : List (BitVec 8)) : Except String TufVerifier := do
  refuse (maxMetadataDownloadSize < data.length) "timestamp metadata exceeds maximum download size"
  let metadata ← parseMetadata crypto data
  refuse (metadata.role ≠ .timestamp) "expected Timestamp role"
  validateSpecVersion metadata
  checkVersion s.latestTimestamp metadata.version
    "rollback attack detected: timestamp version decreased"
    "fast-forward attack detected: timestamp version jump too large"
  s.verifySignatures crypto metadata .timestamp
  refuse (metadata.expires ≤ s.updateStartTime) "timestamp metadata expired at update start time"
  return s.acceptTimestamp metadata (← parseTimestampPayload metadata.payload)

/-- The version the timestamp names, and no later expiry than it has. -/
def checkAgainstTimestamp (metadata : TufMetadata) : Except String Unit :=
  match s.latestTimestamp with
  | none => return ()
  | some timestamp =>
    match s.snapshotMetaVersions snapshotName with
    | none => .error "timestamp did not reference snapshot version"
    | some expected => do
      refuse (metadata.version ≠ expected) "snapshot version mismatch with timestamp"
      refuse (timestamp.expires < metadata.expires) "snapshot expires after timestamp expires"

def acceptSnapshot (metadata : TufMetadata) (metas : String → Option SnapshotMetaEntry) :
    TufVerifier :=
  { s with
    latestSnapshot := some ⟨metadata.version, metadata.expires⟩
    snapshotMetaVersions := fun name =>
      match metas name with
      | some entry => some entry.version
      | none => s.snapshotMetaVersions name
    snapshotMetaLengths := fun name =>
      match (metas name).bind SnapshotMetaEntry.length with
      | some length => some length
      | none => s.snapshotMetaLengths name }

def verifySnapshot (data : List (BitVec 8)) : Except String TufVerifier := do
  refuse (maxMetadataDownloadSize < data.length) "snapshot metadata exceeds maximum download size"
  let metadata ← parseMetadata crypto data
  refuse (metadata.role ≠ .snapshot) "expected Snapshot role"
  validateSpecVersion metadata
  checkVersion s.latestSnapshot metadata.version
    "rollback attack detected: snapshot version decreased"
    "fast-forward attack detected: snapshot version jump too large"
  s.verifySignatures crypto metadata .snapshot
  refuse (metadata.expires ≤ s.updateStartTime) "snapshot metadata expired at update start time"
  s.checkAgainstTimestamp metadata
  return s.acceptSnapshot metadata (← parseSnapshotPayload metadata.payload)

/-- No later expiry than the snapshot has, and the version it names. -/
def checkAgainstSnapshot (metadata : TufMetadata) : Except String Unit := do
  match s.latestSnapshot with
  | none => pure ()
  | some snapshot =>
    refuse (snapshot.expires < metadata.expires) "targets expires after snapshot expires"
  match s.snapshotMetaVersions targetsName with
  | none => pure ()
  | some expected =>
    refuse (metadata.version ≠ expected) "targets version mismatch with snapshot"

def acceptTargets (metadata : TufMetadata) (info : TargetsInfo) : TufVerifier :=
  { s with
    latestTargets := some ⟨metadata.version, metadata.expires⟩
    latestTargetsInfo := some info }

def verifyTargets (data : List (BitVec 8)) : Except String (TargetsInfo × TufVerifier) := do
  refuse (maxMetadataDownloadSize < data.length) "targets metadata exceeds maximum download size"
  let metadata ← parseMetadata crypto data
  refuse (metadata.role ≠ .targets) "expected Targets role"
  validateSpecVersion metadata
  checkVersion s.latestTargets metadata.version
    "rollback attack detected: targets version decreased"
    "fast-forward attack detected: targets version jump too large"
  s.verifySignatures crypto metadata .targets
  refuse (metadata.expires ≤ s.updateStartTime) "targets metadata expired at update start time"
  s.checkAgainstSnapshot metadata
  let info ← parseTargetsPayload crypto metadata.payload
  return (info, s.acceptTargets metadata info)

end TufVerifier

end

end EchOS.Security.Tuf
