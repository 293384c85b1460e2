import EchOS.Lib.Run
import EchOS.Security.TufChecks
import Mathlib.Data.Set.Card

/-! Whether what the verifier records was signed. The signatures cover the payload; the header,
the list of keys and the thresholds stand outside it, so only the state can fix them. -/

namespace EchOS.Security.Tuf

open Fallible Option List Except

/-- What is kept of accepted metadata. The keys and the thresholds are kept of a root only. -/
structure Record where
  role : TufRole
  version : BitVec 64
  expires : BitVec 64
  trust : Option ((KeyId → Option TufKey) × (TufRole → Option (BitVec 8)))

def TufMetadata.record (metadata : TufMetadata) : Record :=
  ⟨metadata.role, metadata.version, metadata.expires,
    if metadata.role = .root then some (metadata.keys, metadata.roleThresholds) else none⟩

namespace TufVerifier

def recorded (s : TufVerifier) (role : TufRole) : Option Record :=
  match role with
  | .root =>
    some ⟨.root, s.root.version, s.root.expires, some (s.root.keys, s.root.roleThresholds)⟩
  | .timestamp => s.latestTimestamp.map fun v => ⟨.timestamp, v.version, v.expires, none⟩
  | .snapshot => s.latestSnapshot.map fun v => ⟨.snapshot, v.version, v.expires, none⟩
  | .targets => s.latestTargets.map fun v => ⟨.targets, v.version, v.expires, none⟩

def step (crypto : Crypto) (s : TufVerifier) (c : TufRole × List (BitVec 8)) : TufVerifier :=
  match s.call crypto c.1 c.2 with
  | .ok s' => s'
  | .error _ => s

variable {crypto : Crypto} {s s' : TufVerifier} {role : TufRole} {data : List (BitVec 8)}
  {metadata : TufMetadata}

section Call

theorem Accepts.recorded_eq (h : Accepts crypto s role metadata s') (hrole : metadata.role = role) :
    s'.recorded role = some metadata.record := by
  cases role with
  | root =>
    subst h
    simp [recorded, TufMetadata.record, hrole]
  | timestamp | snapshot | targets =>
    obtain ⟨_, -, rfl⟩ := h
    simp [recorded, acceptTimestamp, acceptSnapshot, acceptTargets, TufMetadata.record, hrole]

theorem exists_of_call (h : s.call crypto role data = .ok s') :
    ∃ metadata, parseMetadata crypto data = .ok metadata ∧ Passes crypto s role metadata ∧
      s'.recorded role = some metadata.record := by
  obtain ⟨-, metadata, hparse, hpass, haccepts⟩ := call_eq_ok.mp h
  exact ⟨metadata, hparse, hpass, haccepts.recorded_eq hpass.role_eq⟩

end Call

section Runs

/-- What every run keeps: the root's keys are filed under their own ids, and a version of the
targets is only expected once there is a snapshot. -/
structure Grounded (crypto : Crypto) (s : TufVerifier) : Prop where
  filed : s.root.KeysFiled crypto
  listed : (s.snapshotMetaVersions targetsName).isSome → s.latestSnapshot.isSome

theorem grounded_new {now : BitVec 64} (h : new crypto now data = .ok s) : Grounded crypto s := by
  simp only [new, bind_eq_ok] at h
  obtain ⟨root, hparse, _, -, _, -, hs⟩ := h
  cases hs
  exact ⟨keysFiled_of_parseMetadata hparse, fun hsome => absurd hsome Bool.false_ne_true⟩

theorem Grounded.call (hs : Grounded crypto s) (h : s.call crypto role data = .ok s') :
    Grounded crypto s' := by
  obtain ⟨-, metadata, hparse, -, haccepts⟩ := call_eq_ok.mp h
  cases role with
  | root =>
    subst haccepts
    exact ⟨keysFiled_of_parseMetadata hparse, hs.listed⟩
  | timestamp =>
    obtain ⟨named, -, rfl⟩ := haccepts
    refine ⟨hs.filed, fun hsome => hs.listed ?_⟩
    have hne : targetsName ≠ snapshotName := by decide
    have hkept : (s.acceptTimestamp metadata named).snapshotMetaVersions targetsName =
        s.snapshotMetaVersions targetsName := Function.update_of_ne hne (some named.1) _
    rwa [hkept] at hsome
  | snapshot =>
    obtain ⟨metas, -, rfl⟩ := haccepts
    exact ⟨hs.filed, fun _ => rfl⟩
  | targets =>
    obtain ⟨info, -, rfl⟩ := haccepts
    exact ⟨hs.filed, hs.listed⟩

theorem Grounded.step (hs : Grounded crypto s) (c : TufRole × List (BitVec 8)) :
    Grounded crypto (s.step crypto c) := by
  unfold TufVerifier.step
  split
  · exact hs.call ‹_›
  · exact hs

end Runs

section Signers

def keysFor (s : TufVerifier) (role : TufRole) (metadata : TufMetadata) : KeyId → Option TufKey :=
  match role with
  | .root => s.root.keys
  | _ => s.sharedKeys metadata

theorem SignedOk.threshold_le (h : s.SignedOk crypto role metadata) :
    s.root.threshold role ≤ validCount crypto (s.keysFor role metadata) metadata := by
  cases role with
  | root => exact h.1
  | timestamp | snapshot | targets => exact h

variable {id : KeyId} {key : TufKey}

theorem sharedKeys_eq_some (h : s.sharedKeys metadata id = some key) :
    (s.root.keys id).isSome ∧ metadata.keys id = some key := by
  unfold sharedKeys at h
  split_ifs at h with hroot
  exact ⟨hroot, h⟩

theorem isSome_of_keysFor (h : s.keysFor role metadata id = some key) :
    (s.root.keys id).isSome := by
  cases role with
  | root => exact isSome_of_eq_some h
  | timestamp | snapshot | targets => exact (sharedKeys_eq_some h).1

/-- The distinct keys of the root that signatures name. -/
def named (s : TufVerifier) (signatures : List TufSignature) : List KeyId :=
  (signatures.map TufSignature.keyid).dedup.filter fun id => (s.root.keys id).isSome

theorem SignedOk.threshold_le_named (h : s.SignedOk crypto role metadata) :
    s.root.threshold role ≤ (s.named metadata.signatures).length := by
  obtain ⟨ids, hnodup, hlength, hmem⟩ :=
    exists_signers crypto (s.keysFor role metadata) metadata
  have hsubset : ids ⊆ s.named metadata.signatures := by
    intro id hid
    obtain ⟨signature, hsignature, rfl, key, hkey, -⟩ := (hmem id).mp hid
    refine mem_filter.mpr ⟨?_, isSome_of_keysFor hkey⟩
    exact mem_dedup.mpr (mem_map_of_mem hsignature)
  calc s.root.threshold role ≤ ids.length := hlength ▸ h.threshold_le
    _ ≤ (s.named metadata.signatures).length := (hnodup.subperm hsubset).length_le

end Signers

section Authentic

def SameSigned (crypto : Crypto) (data data' : List (BitVec 8)) : Prop :=
  ∃ metadata metadata', parseMetadata crypto data = .ok metadata ∧
    parseMetadata crypto data' = .ok metadata' ∧ metadata'.payload = metadata.payload ∧
    metadata'.signatures = metadata.signatures

/-- At least the threshold of distinct keys of the trusted root have signed the payload. A key
is known by the id computed from it. -/
def SignedByThreshold (crypto : Crypto) (s : TufVerifier) (role : TufRole)
    (data : List (BitVec 8)) : Prop :=
  ∃ metadata, parseMetadata crypto data = .ok metadata ∧
    ∃ ids : List KeyId, ids.Nodup ∧ s.root.threshold role ≤ ids.length ∧
      ∀ id ∈ ids, (s.root.keys id).isSome ∧
        ∃ key, computeKeyid crypto key.keyType key.publicKey = id ∧
          ∃ signature ∈ metadata.signatures, signature.keyid = id ∧
            verifySignature crypto key signature.sig metadata.payload = true

/-- No call accepts the payload and the signatures with another record. -/
def Fixed (crypto : Crypto) (s : TufVerifier) (role : TufRole) (data : List (BitVec 8)) : Prop :=
  ∀ role' data' s₁ s₂, SameSigned crypto data data' → s.call crypto role data = .ok s₁ →
    s.call crypto role' data' = .ok s₂ → s₂.recorded role' = s₁.recorded role

def Authentic (crypto : Crypto) (s : TufVerifier) (role : TufRole) (data : List (BitVec 8)) :
    Prop :=
  SignedByThreshold crypto s role data ∧ Fixed crypto s role data

/-- The state leaves one version and one expiry: both are set by the role above, and that one
expires right after the update has started. -/
def Pinned (s : TufVerifier) (role : TufRole) : Prop :=
  match role with
  | .root => False
  | .timestamp => False
  | .snapshot => s.latestTimestamp.map VerifiedRole.expires = some (s.updateStartTime + 1)
  | .targets => (s.snapshotMetaVersions targetsName).isSome ∧
      s.latestSnapshot.map VerifiedRole.expires = some (s.updateStartTime + 1)

/-- The signatures name fewer keys of the root than any other role needs. -/
def Unshared (crypto : Crypto) (s : TufVerifier) (role : TufRole) (data : List (BitVec 8)) : Prop :=
  ∀ metadata, parseMetadata crypto data = .ok metadata → ∀ other, other ≠ role →
    (s.named metadata.signatures).length < s.root.threshold other

theorem signedByThreshold_of_call (hs : Grounded crypto s)
    (h : s.call crypto role data = .ok s') : SignedByThreshold crypto s role data := by
  obtain ⟨metadata, hparse, hpass, -⟩ := exists_of_call h
  obtain ⟨ids, hnodup, hlength, hmem⟩ :=
    exists_signers crypto (s.keysFor role metadata) metadata
  refine ⟨metadata, hparse, ids, hnodup, hlength ▸ hpass.signed.threshold_le, ?_⟩
  intro id hid
  obtain ⟨signature, hsignature, rfl, key, hkey, hverify⟩ := (hmem id).mp hid
  have hfiled : computeKeyid crypto key.keyType key.publicKey = signature.keyid := by
    cases role with
    | root => exact hs.filed _ key hkey
    | timestamp | snapshot | targets =>
      exact keysFiled_of_parseMetadata hparse _ key (sharedKeys_eq_some hkey).2
  exact ⟨isSome_of_keysFor hkey, key, hfiled, signature, hsignature, rfl, hverify⟩

variable {expires version : BitVec 64}

theorem Passes.redated (h : Passes crypto s role metadata) (hversion : s.VersionOk role version)
    (hexpires : s.ExpiresOk role expires) :
    Passes crypto s role { metadata with version := version, expires := expires } := by
  have hsigned :
      s.SignedOk crypto role { metadata with version := version, expires := expires } := by
    cases role with
    | root | timestamp | snapshot | targets => exact h.signed
  exact ⟨h.role_eq, h.spec, hversion, hsigned, hexpires⟩

theorem Accepts.redated (h : Accepts crypto s role metadata s') (version expires : BitVec 64) :
    ∃ s₂, Accepts crypto s role { metadata with version := version, expires := expires } s₂ := by
  cases role with
  | root => exact ⟨_, rfl⟩
  | timestamp | snapshot | targets =>
    obtain ⟨named, hnamed, -⟩ := h
    exact ⟨_, named, hnamed, rfl⟩

/-- What passed goes through with every other version and expiry that the state allows. -/
theorem Fixed.header_eq (hfixed : Fixed crypto s role data)
    (hcall : s.call crypto role data = .ok s') (hparse : parseMetadata crypto data = .ok metadata)
    (hzero : version ≠ 0) (hversion : s.VersionOk role version)
    (hexpires : s.ExpiresOk role expires) :
    version = metadata.version ∧ expires = metadata.expires := by
  obtain ⟨hsize, metadata', hparse', hpass, haccepts⟩ := call_eq_ok.mp hcall
  obtain rfl := ok.inj (hparse.symm.trans hparse')
  have hother := parseMetadata_redated hparse hzero expires
  have hlength : 27 ≤ data.length := (parseMetadata_eq_ok.mp hparse).1
  obtain ⟨s₂, haccepts₂⟩ := haccepts.redated version expires
  have hcall₂ := call_eq_ok.mpr ⟨hsize.imp_right (Nat.le_trans (Nat.le_of_eq
    (length_redated hlength version expires))), _, hother,
      hpass.redated hversion hexpires, haccepts₂⟩
  have hsame : SameSigned crypto data (Tuf.redated data version expires) :=
    ⟨metadata, _, hparse, hother, rfl, rfl⟩
  have heq := hfixed role _ s' s₂ hsame hcall hcall₂
  rw [haccepts.recorded_eq hpass.role_eq, haccepts₂.recorded_eq hpass.role_eq] at heq
  have hfields := some.inj heq
  exact ⟨congrArg Record.version hfields, congrArg Record.expires hfields⟩

theorem Window.exists_other {prev : Option VerifiedRole} (h : Window prev version) :
    ∃ other, other ≠ 0 ∧ other ≠ version ∧ Window prev other := by
  cases prev with
  | none =>
    have hnone : ∀ v, Window none v := fun v p hp => absurd hp (not_mem_none p)
    by_cases hone : version = 1
    · exact ⟨2, by decide, by subst hone; decide, hnone 2⟩
    · exact ⟨1, by decide, Ne.symm hone, hnone 1⟩
  | some prev =>
    -- The window does not wrap, because the accepted version lies in it.
    obtain ⟨hlow, hhigh⟩ := h prev rfl
    unfold maxVersionJump at hhigh
    by_cases hnext : version = prev.version + 1
    · refine ⟨prev.version + 2, by bv_omega, by bv_omega, fun p hp => ?_⟩
      cases hp
      unfold maxVersionJump
      exact ⟨by bv_omega, by bv_omega⟩
    · refine ⟨prev.version + 1, by bv_omega, Ne.symm hnext, fun p hp => ?_⟩
      cases hp
      unfold maxVersionJump
      exact ⟨by bv_omega, by bv_omega⟩

theorem exists_other_expiry {start bound : BitVec 64} (hstart : start < expires)
    (hbound : expires ≤ bound) (hne : bound ≠ start + 1) :
    ∃ other, other ≠ expires ∧ start < other ∧ other ≤ bound := by
  by_cases hfirst : expires = start + 1
  · exact ⟨start + 2, by bv_omega, by bv_omega, by bv_omega⟩
  · exact ⟨start + 1, Ne.symm hfirst, by bv_omega, by bv_omega⟩

section

variable (hfixed : Fixed crypto s role data) (hcall : s.call crypto role data = .ok s')
include hfixed hcall

theorem Fixed.not_open (prev : Option VerifiedRole)
    (hopen : ∀ version, s.VersionOk role version ↔ Window prev version) : False := by
  obtain ⟨metadata, hparse, hpass, -⟩ := exists_of_call hcall
  obtain ⟨other, hzero, hne, hwindow⟩ := ((hopen _).mp hpass.version).exists_other
  exact hne (hfixed.header_eq hcall hparse hzero ((hopen other).mpr hwindow) hpass.expires).1

theorem Fixed.bound_eq (bound : BitVec 64) (hbound : ∀ expires, s.ExpiresOk role expires ↔
      s.updateStartTime < expires ∧ expires ≤ bound) : bound = s.updateStartTime + 1 := by
  obtain ⟨metadata, hparse, hpass, -⟩ := exists_of_call hcall
  by_contra hne
  obtain ⟨hstart, hle⟩ := (hbound _).mp hpass.expires
  obtain ⟨other, hother, hlow, hhigh⟩ := exists_other_expiry hstart hle hne
  have hzero := version_ne_zero_of_parse hparse
  have hexpires : s.ExpiresOk role other := (hbound other).mpr ⟨hlow, hhigh⟩
  exact hother (hfixed.header_eq hcall hparse hzero hpass.version hexpires).2

theorem Fixed.pinned (hs : Grounded crypto s) : s.Pinned role := by
  cases role with
  | root =>
    -- No check reads when a root expires.
    obtain ⟨metadata, hparse, hpass, -⟩ := exists_of_call hcall
    have hzero := version_ne_zero_of_parse hparse
    have hexpires : s.ExpiresOk .root (metadata.expires + 1) := trivial
    have heq := (hfixed.header_eq hcall hparse hzero hpass.version hexpires).2
    exact absurd heq (by bv_omega)
  | timestamp => exact hfixed.not_open hcall s.latestTimestamp fun version => Iff.rfl
  | snapshot =>
    cases htimestamp : s.latestTimestamp with
    | none =>
      refine (hfixed.not_open hcall s.latestSnapshot fun version => ?_).elim
      simp [VersionOk, htimestamp]
    | some timestamp =>
      have hbound := hfixed.bound_eq hcall timestamp.expires fun expires => by
        simp [ExpiresOk, htimestamp]
      simp [Pinned, htimestamp, hbound]
  | targets =>
    cases hexpected : s.snapshotMetaVersions targetsName with
    | none =>
      refine (hfixed.not_open hcall s.latestTargets fun version => ?_).elim
      simp [VersionOk, hexpected]
    | some expected =>
      have hlisted : s.latestSnapshot.isSome := hs.listed (by simp [hexpected])
      obtain ⟨snapshot, hsnapshot⟩ := isSome_iff_exists.mp hlisted
      have hbound := hfixed.bound_eq hcall snapshot.expires fun expires => by
        simp [ExpiresOk, hsnapshot]
      simp [Pinned, hexpected, hsnapshot, hbound]

end

theorem Pinned.header_eq (h : s.Pinned role) {version' expires' : BitVec 64}
    (hversion : s.VersionOk role version) (hversion' : s.VersionOk role version')
    (hexpires : s.ExpiresOk role expires) (hexpires' : s.ExpiresOk role expires') :
    version = version' ∧ expires = expires' := by
  have hfirst : ∀ {bound : BitVec 64}, bound = s.updateStartTime + 1 →
      ∀ e, s.updateStartTime < e → e ≤ bound → e = s.updateStartTime + 1 := by
    rintro bound rfl e hlow hhigh
    bv_omega
  cases role with
  | root | timestamp => exact h.elim
  | snapshot =>
    obtain ⟨timestamp, htimestamp, hbound⟩ := map_eq_some_iff.mp h
    constructor
    · exact some.inj
        ((hversion.2 timestamp htimestamp).symm.trans (hversion'.2 timestamp htimestamp))
    · rw [hfirst hbound expires hexpires.1 (hexpires.2 timestamp htimestamp),
        hfirst hbound expires' hexpires'.1 (hexpires'.2 timestamp htimestamp)]
  | targets =>
    obtain ⟨hlisted, hmap⟩ := h
    obtain ⟨expected, hexpected⟩ := isSome_iff_exists.mp hlisted
    obtain ⟨snapshot, hsnapshot, hbound⟩ := map_eq_some_iff.mp hmap
    constructor
    · rw [hversion.2 expected hexpected, hversion'.2 expected hexpected]
    · rw [hfirst hbound expires hexpires.1 (hexpires.2 snapshot hsnapshot),
        hfirst hbound expires' hexpires'.1 (hexpires'.2 snapshot hsnapshot)]

theorem Pinned.ne_root (h : s.Pinned role) : role ≠ .root := by
  rintro rfl
  exact h

theorem Pinned.fixed (hpinned : s.Pinned role) (hunshared : Unshared crypto s role data) :
    Fixed crypto s role data := by
  intro role' data' s₁ s₂ hsame hcall₁ hcall₂
  obtain ⟨metadata, metadata', hparse, hparse', -, hsignatures⟩ := hsame
  obtain ⟨metadata₁, hparse₁, hpass₁, hrecord₁⟩ := exists_of_call hcall₁
  obtain ⟨metadata₂, hparse₂, hpass₂, hrecord₂⟩ := exists_of_call hcall₂
  obtain rfl := ok.inj (hparse.symm.trans hparse₁)
  obtain rfl := ok.inj (hparse'.symm.trans hparse₂)
  by_cases hrole : role' = role
  · subst hrole
    obtain ⟨hversion, hexpires⟩ := hpinned.header_eq hpass₂.version hpass₁.version
      hpass₂.expires hpass₁.expires
    rw [hrecord₁, hrecord₂, TufMetadata.record, TufMetadata.record, hpass₁.role_eq,
      hpass₂.role_eq, if_neg hpinned.ne_root, if_neg hpinned.ne_root, hversion, hexpires]
  · -- The other role would need more keys than the signatures name.
    have hthreshold := hpass₂.signed.threshold_le_named
    rw [hsignatures] at hthreshold
    exact absurd (hunshared metadata hparse role' hrole) (Nat.not_lt.mpr hthreshold)

/-- After every run, what an accepted call records is fixed by what was signed only in a pinned
state, and in a pinned state whenever no other role is within reach of the signatures. -/
theorem authentic_of_accepted (crypto : Crypto) (now : BitVec 64) (rootData : List (BitVec 8))
    (s₀ : TufVerifier) (hnew : new crypto now rootData = .ok s₀)
    (calls : List (TufRole × List (BitVec 8))) (role : TufRole) (data : List (BitVec 8))
    (s' : TufVerifier) (hcall : (Run.exec (step crypto) s₀ calls).call crypto role data = .ok s') :
    (Authentic crypto (Run.exec (step crypto) s₀ calls) role data →
      (Run.exec (step crypto) s₀ calls).Pinned role) ∧
    ((Run.exec (step crypto) s₀ calls).Pinned role ∧
        Unshared crypto (Run.exec (step crypto) s₀ calls) role data →
      Authentic crypto (Run.exec (step crypto) s₀ calls) role data) := by
  have hs := Run.exec_invariant (fun _ c h => h.step c) (grounded_new hnew) calls
  constructor
  · rintro ⟨-, hfixed⟩
    exact hfixed.pinned hcall hs
  · rintro ⟨hpinned, hunshared⟩
    exact ⟨signedByThreshold_of_call hs hcall, hpinned.fixed hunshared⟩

/-- A signature verifies for one message only. -/
def ExactSignatures (crypto : Crypto) : Prop :=
  ∀ key sig message message', verifySignature crypto key sig message = true →
    verifySignature crypto key sig message' = true → message = message'

/-- A toy scheme for witnesses: a signature is the key in front of the message, and the hash keeps
the first 32 bytes, which tells short inputs apart. -/
def plainCrypto : Crypto where
  sha256 := Bytes.array 32
  ed25519Verify _ _ _ := false
  rsaPkcs1Verify publicKey signature message := signature = publicKey ++ message

theorem exactSignatures_plainCrypto : ExactSignatures plainCrypto := by
  intro key sig message message' h h'
  unfold verifySignature at h h'
  cases hkey : key.keyType with
  | ed25519 => simp [hkey, plainCrypto] at h
  | rsa =>
    simp only [hkey, plainCrypto] at h h'
    split_ifs at h h'
    exact append_cancel_left ((of_decide_eq_true h).symm.trans (of_decide_eq_true h'))

/-- A file with some keys and signatures. A signature has the key that it names, and the key that it
was made with. -/
def fileWith (role : BitVec 8) (version expires : ℕ) (keys : List (BitVec 8))
    (signatures : List (BitVec 8 × BitVec 8)) (thresholds payload : List (BitVec 8)) :
    List (BitVec 8) :=
  let keyid (key : BitVec 8) := (computeKeyid plainCrypto .rsa [key]).toList
  tufMagic ++ [formatVersion, role, 1, 0, 0, 0, 0] ++
    Bytes.toLe 8 version ++ Bytes.toLe 8 expires ++
    Bytes.toLe 4 keys.length ++ keys.flatMap (fun key => keyid key ++ [1, 1, 0, key]) ++
    Bytes.toLe 4 signatures.length ++ signatures.flatMap (fun sig =>
      keyid sig.1 ++ Bytes.toLe 2 (payload.length + 1) ++ sig.2 :: payload) ++
    thresholds ++ payload

def signedFile (role : BitVec 8) (version expires : ℕ) (signers : List (BitVec 8))
    (thresholds payload : List (BitVec 8)) : List (BitVec 8) :=
  fileWith role version expires signers (signers.map fun key => (key, key)) thresholds payload

/-- A root with two keys, both of which all roles but the snapshot need. -/
def rootFile : List (BitVec 8) := signedFile 0 1 0 [7, 8] [2, 2, 1, 2] []

def timestampFile (version expires : ℕ) : List (BitVec 8) :=
  signedFile 1 version expires [7, 8] [] (Bytes.toLe 8 3)

def snapshotFile : List (BitVec 8) := signedFile 2 3 1 [7] [] [0, 0, 0, 0]

theorem authentic_of_accepted_last_second :
    ∃ s₀ s', new plainCrypto 0 rootFile = .ok s₀ ∧
      (Run.exec (step plainCrypto) s₀ [(.timestamp, timestampFile 1 1)]).call plainCrypto
        .snapshot snapshotFile = .ok s' ∧
      Authentic plainCrypto (Run.exec (step plainCrypto) s₀ [(.timestamp, timestampFile 1 1)])
        .snapshot snapshotFile := by
  have hcheck : ∃ s₀, new plainCrypto 0 rootFile = .ok s₀ ∧
      let s := Run.exec (step plainCrypto) s₀ [(.timestamp, timestampFile 1 1)]
      ∃ s', s.call plainCrypto .snapshot snapshotFile = .ok s' ∧
        ∃ metadata, parseMetadata plainCrypto snapshotFile = .ok metadata ∧
          s.latestTimestamp.map VerifiedRole.expires = some (s.updateStartTime + 1) ∧
          ∀ other ∈ [TufRole.root, .timestamp, .targets],
            (s.named metadata.signatures).length < s.root.threshold other := by
    decide +kernel
  obtain ⟨s₀, hnew, s', hcall, metadata, hparse, hexpires, hnamed⟩ := hcheck
  refine ⟨s₀, s', hnew, hcall, ?_⟩
  refine (authentic_of_accepted plainCrypto 0 rootFile s₀ hnew _ .snapshot
    snapshotFile s' hcall).2 ⟨hexpires, ?_⟩
  intro metadata' hparse' other hother
  obtain rfl := ok.inj (hparse.symm.trans hparse')
  apply hnamed other
  cases other with
  | root | timestamp | targets => decide
  | snapshot => exact absurd rfl hother

/-- With exact signatures, a timestamp is accepted as version 1 that expires at time 10 and, from
the same state, with the same payload and signatures as version 5 that expires at time 99. -/
theorem timestamp_accepted_with_two_headers :
    ExactSignatures plainCrypto ∧ ∃ s₀ s₁ s₂, new plainCrypto 0 rootFile = .ok s₀ ∧
      SameSigned plainCrypto (timestampFile 1 10) (timestampFile 5 99) ∧
      s₀.call plainCrypto .timestamp (timestampFile 1 10) = .ok s₁ ∧
      s₀.call plainCrypto .timestamp (timestampFile 5 99) = .ok s₂ ∧
      s₁.latestTimestamp = some ⟨1, 10⟩ ∧ s₂.latestTimestamp = some ⟨5, 99⟩ ∧
      ¬Authentic plainCrypto s₀ .timestamp (timestampFile 1 10) := by
  have hcheck : ∃ s₀, new plainCrypto 0 rootFile = .ok s₀ ∧
      ∃ s₁, s₀.call plainCrypto .timestamp (timestampFile 1 10) = .ok s₁ ∧
      ∃ s₂, s₀.call plainCrypto .timestamp (timestampFile 5 99) = .ok s₂ ∧
        s₁.latestTimestamp = some ⟨1, 10⟩ ∧ s₂.latestTimestamp = some ⟨5, 99⟩ := by
    decide +kernel
  have hparses : ∃ metadata, parseMetadata plainCrypto (timestampFile 1 10) = .ok metadata ∧
      ∃ metadata', parseMetadata plainCrypto (timestampFile 5 99) = .ok metadata' ∧
        metadata'.payload = metadata.payload ∧ metadata'.signatures = metadata.signatures := by
    decide +kernel
  obtain ⟨s₀, hnew, s₁, hcall₁, s₂, hcall₂, hlatest₁, hlatest₂⟩ := hcheck
  obtain ⟨metadata, hparse, metadata', hparse', hequal⟩ := hparses
  have hsame : SameSigned plainCrypto (timestampFile 1 10) (timestampFile 5 99) :=
    ⟨metadata, metadata', hparse, hparse', hequal⟩
  refine ⟨exactSignatures_plainCrypto, s₀, s₁, s₂, hnew, hsame, hcall₁, hcall₂, hlatest₁,
    hlatest₂, ?_⟩
  rintro ⟨-, hfixed⟩
  have hrecords := hfixed .timestamp _ s₁ s₂ hsame hcall₁ hcall₂
  simp [recorded, hlatest₁, hlatest₂] at hrecords

end Authentic

end TufVerifier

section Distinct

open TufVerifier

/-- A key apart from the id it is filed under. -/
def TufKey.material (key : TufKey) : KeyType × List (BitVec 8) := (key.keyType, key.publicKey)

def idOf (crypto : Crypto) (k : KeyType × List (BitVec 8)) : KeyId := computeKeyid crypto k.1 k.2

def TufMetadata.listed (metadata : TufMetadata) : Set (KeyType × List (BitVec 8)) :=
  {k | ∃ id key, metadata.keys id = some key ∧ key.material = k}

/-- The keys of both the root and the metadata with an entry whose signature verifies. -/
def signers (crypto : Crypto) (root metadata : TufMetadata) : Set (KeyType × List (BitVec 8)) :=
  {k | k ∈ root.listed ∧ k ∈ metadata.listed ∧ ∃ entry ∈ metadata.signatures,
    entry.keyid = idOf crypto k ∧
      verifySignature crypto ⟨entry.keyid, k.1, k.2⟩ entry.sig metadata.payload = true}

/-- As long as no two keys share an id, each key that has signed counts once. -/
theorem verifySignatures_iff (crypto : Crypto) (s : TufVerifier) (rootData data : List (BitVec 8))
    (metadata : TufMetadata) (role : TufRole) (hroot : parseMetadata crypto rootData = .ok s.root)
    (hdata : parseMetadata crypto data = .ok metadata)
    (hcollide : ∀ k ∈ s.root.listed, ∀ k' ∈ metadata.listed,
      idOf crypto k = idOf crypto k' → k = k') :
    s.verifySignatures crypto metadata role = .ok () ↔
      (s.root.threshold role : ℕ∞) ≤ (signers crypto s.root metadata).encard := by
  have hrootFiled := keysFiled_of_parseMetadata hroot
  have hfiled := keysFiled_of_parseMetadata hdata
  obtain ⟨ids, hnodup, hlength, hmem⟩ := exists_signers crypto (s.sharedKeys metadata) metadata
  have himage : idOf crypto '' signers crypto s.root metadata = {id | id ∈ ids} := by
    ext id
    refine Iff.trans ⟨?_, ?_⟩ (hmem id).symm
    · rintro ⟨-, ⟨⟨id, key, hkey, rfl⟩, ⟨id', key', hkey', hsame⟩, entry, hentry,
        hid, hverify⟩, rfl⟩
      obtain rfl : idOf crypto key.material = id := hrootFiled id key hkey
      obtain rfl : idOf crypto key'.material = id' := hfiled id' key' hkey'
      rw [hsame] at hkey'
      rw [← hsame] at hverify
      refine ⟨entry, hentry, hid, key', ?_, hverify⟩
      rw [hid, sharedKeys, hkey]
      exact hkey'
    · rintro ⟨entry, hentry, rfl, key, hkey, hverify⟩
      obtain ⟨hshared, hkey⟩ := sharedKeys_eq_some hkey
      obtain ⟨key', hkey'⟩ := isSome_iff_exists.mp hshared
      have hid := hfiled _ key hkey
      have hlisted : key.material ∈ metadata.listed := ⟨_, key, hkey, rfl⟩
      have hlisted' : key'.material ∈ s.root.listed := ⟨_, key', hkey', rfl⟩
      have hsame := hcollide _ hlisted' _ hlisted
        ((hrootFiled _ key' hkey').trans hid.symm)
      exact ⟨key.material, ⟨hsame ▸ hlisted', hlisted, entry, hentry, hid.symm, hverify⟩, hid⟩
  have hinj : Set.InjOn (idOf crypto) (signers crypto s.root metadata) :=
    fun k hk k' hk' => hcollide k hk.1 k' hk'.2.1
  rw [verifySignatures_eq_ok, ← hlength, ← toFinset_card_of_nodup hnodup, ← hinj.encard_image,
    himage, ← coe_toFinset, Set.encard_coe_eq_coe_finsetCard, Nat.cast_le]

/-- A root with two keys, signed twice with the first and with another one for the second. -/
def halfSigned : List (BitVec 8) := fileWith 0 1 0 [7, 8] [(7, 7), (7, 7), (8, 9)] [1, 2, 1, 1] []

/-- One key has signed: that is enough for the root, and not for the timestamp. -/
theorem verifySignatures_iff_half_signed :
    ∃ s : TufVerifier, parseMetadata plainCrypto halfSigned = .ok s.root ∧
      1 ≤ (signers plainCrypto s.root s.root).encard ∧
      ¬2 ≤ (signers plainCrypto s.root s.root).encard := by
  obtain ⟨root, hparse, hroot, htimestamp, hone, htwo⟩ : ∃ root,
      parseMetadata plainCrypto halfSigned = .ok root ∧
      let s : TufVerifier := ⟨root, none, none, none, none, fun _ => none, fun _ => none, 0⟩
      (s.verifySignatures plainCrypto root .root).isOk = true ∧
      (s.verifySignatures plainCrypto root .timestamp).isOk = false ∧
      root.threshold .root = 1 ∧ root.threshold .timestamp = 2 := by
    decide +kernel
  let s : TufVerifier := ⟨root, none, none, none, none, fun _ => none, fun _ => none, 0⟩
  have hfiled := keysFiled_of_parseMetadata hparse
  have hiff (role : TufRole) : s.verifySignatures plainCrypto root role = .ok () ↔
      (root.threshold role : ℕ∞) ≤ (signers plainCrypto root root).encard := by
    refine verifySignatures_iff plainCrypto s halfSigned halfSigned root role hparse hparse ?_
    rintro _ ⟨id, key, hkey, rfl⟩ _ ⟨id', key', hkey', rfl⟩ hid
    obtain rfl : idOf plainCrypto key.material = id := hfiled id key hkey
    obtain rfl : idOf plainCrypto key'.material = id' := hfiled id' key' hkey'
    rw [hid] at hkey
    exact congrArg TufKey.material (some.inj (hkey.symm.trans hkey'))
  refine ⟨s, hparse, ?_, fun htwo' => ?_⟩
  · cases hok : s.verifySignatures plainCrypto root .root with
    | error e =>
      rw [hok] at hroot
      cases hroot
    | ok u => simpa [hone] using (hiff .root).mp hok
  · have hok := (hiff .timestamp).mpr (by simpa [htwo] using htwo')
    rw [hok] at htimestamp
    cases htimestamp

end Distinct

end EchOS.Security.Tuf
