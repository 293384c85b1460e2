import EchOS.Lib.Consume
import EchOS.Security.Tuf
import Mathlib.Data.List.Induction

/-! What the format and the checks of the verifier come to: the fields a parse gives, the keys
that a count of signatures stands for, and what each call requires of the metadata. -/

namespace EchOS.Security.Tuf

open Fallible Consume Bytes List Option Except

section Parse

variable {crypto : Crypto} {data : List (BitVec 8)} {metadata : TufMetadata}

theorem parseMetadata_eq_ok : parseMetadata crypto data = .ok metadata ↔
    27 ≤ data.length ∧ slice data 0 4 = tufMagic ∧ data.getD 4 0 = formatVersion ∧
    TufRole.fromU8 (data.getD 5 0) = .ok metadata.role ∧ headerLe data 11 19 64 ≠ 0 ∧
    ∃ keys signatures thresholds payload,
      readBody crypto metadata.role (data.drop 27) = .ok ((keys, signatures, thresholds), payload) ∧
      metadata = {
        role := metadata.role
        specVersionMajor := headerLe data 6 8 16
        specVersionMinor := headerLe data 8 10 16
        consistentSnapshot := data.getD 10 0 ≠ 0
        version := headerLe data 11 19 64
        expires := headerLe data 19 27 64
        signatures := signatures
        keys := collect keys
        roleThresholds := collect thresholds
        payload := payload } := by
  simp only [parseMetadata, bind_eq_ok, refuse_eq_ok, Nat.not_lt, not_not]
  constructor
  · rintro ⟨_, hlength, _, hmagic, _, hformat, role, hrole, _, hversion,
      ⟨⟨keys, signatures, thresholds⟩, payload⟩, hbody, hmetadata⟩
    cases hmetadata
    exact ⟨hlength, hmagic, hformat, hrole, hversion, keys, signatures, thresholds, payload,
      hbody, rfl⟩
  · rintro ⟨hlength, hmagic, hformat, hrole, hversion, keys, signatures, thresholds, payload,
      hbody, hmetadata⟩
    refine ⟨(), hlength, (), hmagic, (), hformat, _, hrole, (), hversion, _, hbody, ?_⟩
    exact congrArg ok hmetadata.symm

theorem version_ne_zero_of_parse (h : parseMetadata crypto data = .ok metadata) :
    metadata.version ≠ 0 := by
  obtain ⟨-, -, -, -, hversion, keys, signatures, thresholds, payload, -, hmetadata⟩ :=
    parseMetadata_eq_ok.mp h
  rw [hmetadata]
  exact hversion

def redated (data : List (BitVec 8)) (version expires : BitVec 64) : List (BitVec 8) :=
  Disk.patch data 11 (toLe 8 version.toNat ++ toLe 8 expires.toNat)

theorem length_redated (h : 27 ≤ data.length) (version expires : BitVec 64) :
    (redated data version expires).length = data.length :=
  Disk.length_patch rfl (by simpa using h)

section Redated

variable (h : 27 ≤ data.length) (version expires : BitVec 64)

include h

theorem headerLe_redated_of_le {a b w : ℕ} (hb : b ≤ 11) :
    headerLe (redated data version expires) a b w = headerLe data a b w := by
  rw [headerLe, redated, slice_patch_of_disjoint (by simpa using h) (.inl hb), headerLe]

theorem getD_redated {k : ℕ} (hk : k < 11) :
    (redated data version expires).getD k 0 = data.getD k 0 := by
  rw [redated, Disk.getD_patch (by simpa using h), if_neg (by omega)]

theorem drop_redated : (redated data version expires).drop 27 = data.drop 27 :=
  Disk.drop_patch (by simpa using h) (by simp)

theorem headerLe_redated_version : headerLe (redated data version expires) 11 19 64 = version := by
  have hfront : (data.take 11).length = 11 := length_take_of_le (by omega)
  rw [headerLe, redated, Disk.patch, append_assoc, append_assoc,
    slice_middle hfront (by simp), ofLe_toLe (by simpa using version.isLt),
    BitVec.ofNat_toNat, BitVec.setWidth_eq]

theorem headerLe_redated_expires : headerLe (redated data version expires) 19 27 64 = expires := by
  have hfront : (data.take 11 ++ toLe 8 version.toNat).length = 19 := by
    rw [length_append, length_take_of_le (by omega), length_toLe]
  rw [headerLe, redated, Disk.patch, ← append_assoc, append_assoc,
    slice_middle hfront (by simp), ofLe_toLe (by simpa using expires.isLt),
    BitVec.ofNat_toNat, BitVec.setWidth_eq]

end Redated

/-- Nothing but the header says what version the metadata is and when it expires. -/
theorem parseMetadata_redated (hparse : parseMetadata crypto data = .ok metadata)
    {version : BitVec 64} (hversion : version ≠ 0) (expires : BitVec 64) :
    parseMetadata crypto (redated data version expires) =
      .ok { metadata with version := version, expires := expires } := by
  obtain ⟨hlength, hmagic, hformat, hrole, -, keys, signatures, thresholds, payload, hbody,
    hmetadata⟩ := parseMetadata_eq_ok.mp hparse
  refine parseMetadata_eq_ok.mpr ⟨?_, ?_, ?_, ?_, ?_, keys, signatures, thresholds, payload, ?_, ?_⟩
  · rwa [length_redated hlength]
  · rw [redated, slice_patch_of_disjoint (by simpa using hlength) (.inl (by omega)), hmagic]
  · rw [getD_redated hlength _ _ (by omega), hformat]
  · rw [getD_redated hlength _ _ (by omega), hrole]
  · rwa [headerLe_redated_version hlength]
  · rw [drop_redated hlength, hbody]
  · rw [
      headerLe_redated_of_le hlength _ _ (by omega), headerLe_redated_of_le hlength _ _ (by omega),
      getD_redated hlength _ _ (by omega), headerLe_redated_version hlength,
      headerLe_redated_expires hlength, hmetadata]

/-- The keys are filed under the ids computed from them. -/
def TufMetadata.KeysFiled (crypto : Crypto) (metadata : TufMetadata) : Prop :=
  ∀ id key, metadata.keys id = some key → computeKeyid crypto key.keyType key.publicKey = id

theorem mem_of_collect {κ α : Type} [DecidableEq κ] {entries : List (κ × α)} {k : κ} {a : α}
    (h : collect entries k = some a) : (k, a) ∈ entries := by
  induction entries using List.reverseRecOn with
  | nil => cases h
  | append_singleton entries entry ih =>
    rw [collect, foldl_concat] at h
    by_cases hk : k = entry.1
    · subst hk
      rw [Function.update_self] at h
      cases h
      exact mem_append_right _ (mem_singleton_self _)
    · rw [Function.update_of_ne hk] at h
      exact mem_append_left _ (ih h)

theorem yields_readKey (mismatch : String) : Yields (readKey crypto mismatch)
    fun entry => computeKeyid crypto entry.2.keyType entry.2.publicKey = entry.1 := by
  refine yields_bind fun keyid => yields_bind fun typeByte => yields_bind fun keyType =>
    yields_bind fun pubLen => yields_bind fun publicKey => ?_
  refine Yields.bind (yields_lift fun _ h => refuse_eq_ok.mp h) fun _ hfiled => yields_pure ?_
  exact (not_not.mp hfiled).symm

theorem yields_readMany {α : Type} {item : Read α} {P : α → Prop} (h : Yields item P) :
    ∀ count, Yields (readMany item count) fun l => ∀ a ∈ l, P a
  | 0 => yields_pure (forall_mem_nil P)
  | count + 1 => h.bind fun _ ha => (yields_readMany h count).bind fun _ hl =>
      yields_pure (forall_mem_cons.mpr ⟨ha, hl⟩)

theorem keysFiled_of_parseMetadata (h : parseMetadata crypto data = .ok metadata) :
    metadata.KeysFiled crypto := by
  obtain ⟨-, -, -, -, -, keys, signatures, thresholds, payload, hbody, hmetadata⟩ :=
    parseMetadata_eq_ok.mp h
  have hfiled : Yields (readBody crypto metadata.role) fun body =>
      ∀ entry ∈ body.1, computeKeyid crypto entry.2.keyType entry.2.publicKey = entry.1 :=
    yields_bind fun count => (yields_readMany (yields_readKey _) count.toNat).bind fun keys hkeys =>
      yields_bind fun _ => yields_bind fun _ => yields_bind fun _ => yields_pure hkeys
  intro id key hkey
  rw [hmetadata] at hkey
  exact hfiled _ _ _ hbody _ (mem_of_collect hkey)

end Parse

section Count

variable (crypto : Crypto) (keyFor : KeyId → Option TufKey)

def Counts (payload : List (BitVec 8)) (signature : TufSignature) : Prop :=
  ∃ key, keyFor signature.keyid = some key ∧
    verifySignature crypto key signature.sig payload = true

def Signs (metadata : TufMetadata) (id : KeyId) : Prop :=
  ∃ signature ∈ metadata.signatures, signature.keyid = id ∧
    Counts crypto keyFor metadata.payload signature

structure Counted (payload : List (BitVec 8)) (seen : List TufSignature) (s : ℕ × List KeyId) :
    Prop where
  count : s.1 = s.2.length
  nodup : s.2.Nodup
  mem : ∀ id, id ∈ s.2 ↔
    ∃ signature ∈ seen, signature.keyid = id ∧ Counts crypto keyFor payload signature

variable {crypto keyFor} {payload : List (BitVec 8)} {seen : List TufSignature} {s : ℕ × List KeyId}
  {signature : TufSignature}

section

variable (h : Counted crypto keyFor payload seen s)
include h

theorem Counted.skip (hskip : Counts crypto keyFor payload signature → signature.keyid ∈ s.2) :
    Counted crypto keyFor payload (seen ++ [signature]) s := by
  refine ⟨h.count, h.nodup, fun id => (h.mem id).trans ⟨?_, ?_⟩⟩
  · rintro ⟨earlier, hearlier, hid⟩
    exact ⟨earlier, mem_append_left _ hearlier, hid⟩
  · rintro ⟨other, hother, rfl, hcounts⟩
    rcases mem_append.mp hother with hearlier | hlast
    · exact ⟨other, hearlier, rfl, hcounts⟩
    · obtain rfl := mem_singleton.mp hlast
      exact (h.mem _).mp (hskip hcounts)

theorem Counted.add (hnew : signature.keyid ∉ s.2)
    (hcounts : Counts crypto keyFor payload signature) :
    Counted crypto keyFor payload (seen ++ [signature]) (s.1 + 1, signature.keyid :: s.2) := by
  refine ⟨congrArg (· + 1) h.count, nodup_cons.mpr ⟨hnew, h.nodup⟩, fun id => ?_⟩
  rw [mem_cons, h.mem]
  constructor
  · rintro (rfl | ⟨earlier, hearlier, hid⟩)
    · exact ⟨signature, mem_append_right _ (mem_singleton_self _), rfl, hcounts⟩
    · exact ⟨earlier, mem_append_left _ hearlier, hid⟩
  · rintro ⟨other, hother, hid, hvalid⟩
    rcases mem_append.mp hother with hearlier | hlast
    · exact .inr ⟨other, hearlier, hid, hvalid⟩
    · obtain rfl := mem_singleton.mp hlast
      exact .inl hid.symm

theorem Counted.step (signature : TufSignature) :
    Counted crypto keyFor payload (seen ++ [signature])
      (countSignature crypto keyFor payload s signature) := by
  unfold countSignature
  split_ifs with hseen
  · exact h.skip fun _ => hseen
  · cases hkey : keyFor signature.keyid with
    | none =>
      refine h.skip fun hcounts => ?_
      obtain ⟨key, hsome, -⟩ := hcounts
      exact nomatch hkey.symm.trans hsome
    | some key =>
      dsimp only
      split_ifs with hverify
      · exact h.add hseen ⟨key, hkey, hverify⟩
      · refine h.skip fun hcounts => ?_
        obtain ⟨key', hsome, hverify'⟩ := hcounts
        obtain rfl := some.inj (hkey.symm.trans hsome)
        exact absurd hverify' hverify

end

theorem counted_foldl (crypto : Crypto) (keyFor : KeyId → Option TufKey)
    (payload : List (BitVec 8)) (signatures : List TufSignature) :
    Counted crypto keyFor payload signatures
      (signatures.foldl (countSignature crypto keyFor payload) (0, [])) := by
  induction signatures using List.reverseRecOn with
  | nil => exact ⟨rfl, nodup_nil, by simp⟩
  | append_singleton signatures signature ih =>
    rw [foldl_concat]
    exact ih.step signature

theorem exists_signers (crypto : Crypto) (keyFor : KeyId → Option TufKey) (metadata : TufMetadata) :
    ∃ ids : List KeyId, ids.Nodup ∧ ids.length = validCount crypto keyFor metadata ∧
      ∀ id, id ∈ ids ↔ Signs crypto keyFor metadata id := by
  have h := counted_foldl crypto keyFor metadata.payload metadata.signatures
  exact ⟨_, h.nodup, h.count.symm, h.mem⟩

end Count

namespace TufVerifier

def call (crypto : Crypto) (s : TufVerifier) (role : TufRole) (data : List (BitVec 8)) :
    Except String TufVerifier :=
  match role with
  | .root => s.updateRoot crypto data
  | .timestamp => s.verifyTimestamp crypto data
  | .snapshot => s.verifySnapshot crypto data
  | .targets => (s.verifyTargets crypto data).map Prod.snd

def Window (prev : Option VerifiedRole) (version : BitVec 64) : Prop :=
  ∀ p, prev = some p → p.version ≤ version ∧ version ≤ p.version + maxVersionJump

def VersionOk (s : TufVerifier) (role : TufRole) (version : BitVec 64) : Prop :=
  match role with
  | .root => version = s.root.version + 1
  | .timestamp => Window s.latestTimestamp version
  | .snapshot => Window s.latestSnapshot version ∧
      ∀ timestamp, s.latestTimestamp = some timestamp →
        s.snapshotMetaVersions snapshotName = some version
  | .targets => Window s.latestTargets version ∧
      ∀ expected, s.snapshotMetaVersions targetsName = some expected → version = expected

def ExpiresOk (s : TufVerifier) (role : TufRole) (expires : BitVec 64) : Prop :=
  match role with
  | .root => True
  | .timestamp => s.updateStartTime < expires
  | .snapshot => s.updateStartTime < expires ∧
      ∀ timestamp, s.latestTimestamp = some timestamp → expires ≤ timestamp.expires
  | .targets => s.updateStartTime < expires ∧
      ∀ snapshot, s.latestSnapshot = some snapshot → expires ≤ snapshot.expires

def sharedKeys (s : TufVerifier) (metadata : TufMetadata) : KeyId → Option TufKey := fun id =>
  if (s.root.keys id).isSome then metadata.keys id else none

/-- The signatures a call asks for: a new root has to satisfy the old one and itself. -/
def SignedOk (crypto : Crypto) (s : TufVerifier) (role : TufRole) (metadata : TufMetadata) : Prop :=
  match role with
  | .root => s.root.threshold .root ≤ validCount crypto s.root.keys metadata ∧
      s.root.threshold .root ≤ validCount crypto metadata.keys metadata
  | role => s.root.threshold role ≤ validCount crypto (s.sharedKeys metadata) metadata

/-- What a call keeps of metadata, if it can read the payload. -/
def Accepts (crypto : Crypto) (s : TufVerifier) (role : TufRole) (metadata : TufMetadata)
    (s' : TufVerifier) : Prop :=
  match role with
  | .root => { s with root := metadata } = s'
  | .timestamp => ∃ named, parseTimestampPayload metadata.payload = .ok named ∧
      s.acceptTimestamp metadata named = s'
  | .snapshot => ∃ metas, parseSnapshotPayload metadata.payload = .ok metas ∧
      s.acceptSnapshot metadata metas = s'
  | .targets => ∃ info, parseTargetsPayload crypto metadata.payload = .ok info ∧
      s.acceptTargets metadata info = s'

structure Passes (crypto : Crypto) (s : TufVerifier) (role : TufRole) (metadata : TufMetadata) :
    Prop where
  role_eq : metadata.role = role
  spec : validateSpecVersion metadata = .ok ()
  version : s.VersionOk role metadata.version
  signed : s.SignedOk crypto role metadata
  expires : s.ExpiresOk role metadata.expires

/-- There is no limit to the size of a root. -/
def SizeOk (role : TufRole) (data : List (BitVec 8)) : Prop :=
  role = .root ∨ data.length ≤ maxMetadataDownloadSize

variable {u : Unit}

theorem checkVersion_eq_ok {prev : Option VerifiedRole} {version : BitVec 64}
    {rollback fastForward : String} :
    checkVersion prev version rollback fastForward = .ok u ↔ Window prev version := by
  cases prev with
  | none => exact iff_of_true rfl fun p hp => nomatch hp
  | some prev =>
    simp only [checkVersion, bind_eq_ok, refuse_eq_ok, BitVec.not_lt, Window]
    constructor
    · rintro ⟨-, hlow, hhigh⟩ p hp
      cases hp
      exact ⟨hlow, hhigh⟩
    · intro h
      exact ⟨(), h prev rfl⟩

variable {crypto : Crypto} {s s' : TufVerifier} {role : TufRole} {data : List (BitVec 8)}
  {metadata : TufMetadata}

theorem verifySignatures_eq_ok : s.verifySignatures crypto metadata role = .ok u ↔
    s.root.threshold role ≤ validCount crypto (s.sharedKeys metadata) metadata := by
  rw [verifySignatures, refuse_eq_ok, Nat.not_lt]
  rfl

theorem checkAgainstTimestamp_eq_ok : s.checkAgainstTimestamp metadata = .ok u ↔
    ∀ timestamp, s.latestTimestamp = some timestamp →
      s.snapshotMetaVersions snapshotName = some metadata.version ∧
        metadata.expires ≤ timestamp.expires := by
  unfold checkAgainstTimestamp
  cases s.latestTimestamp with
  | none => exact iff_of_true rfl fun p hp => nomatch hp
  | some timestamp =>
    cases s.snapshotMetaVersions snapshotName with
    | none =>
      refine iff_of_false (fun h => nomatch h) fun h => ?_
      exact nomatch (h timestamp rfl).1
    | some expected =>
      simp only [bind_eq_ok, refuse_eq_ok, not_not, BitVec.not_lt, some.injEq]
      constructor
      · rintro ⟨-, hversion, hexpires⟩ p rfl
        exact ⟨hversion.symm, hexpires⟩
      · intro h
        exact ⟨(), (h timestamp rfl).1.symm, (h timestamp rfl).2⟩

theorem checkAgainstSnapshot_eq_ok : s.checkAgainstSnapshot metadata = .ok u ↔
    (∀ snapshot, s.latestSnapshot = some snapshot → metadata.expires ≤ snapshot.expires) ∧
      ∀ expected, s.snapshotMetaVersions targetsName = some expected →
        metadata.version = expected := by
  unfold checkAgainstSnapshot
  cases s.latestSnapshot with
  | none =>
    cases s.snapshotMetaVersions targetsName with
    | none => simp [pure, Except.pure]
    | some expected => simp [refuse_eq_ok]
  | some snapshot =>
    cases s.snapshotMetaVersions targetsName with
    | none => simp [pure, Except.pure, bind_eq_ok, refuse_eq_ok]
    | some expected => simp [bind_eq_ok, refuse_eq_ok]

theorem call_eq_ok : s.call crypto role data = .ok s' ↔ SizeOk role data ∧ ∃ metadata,
    parseMetadata crypto data = .ok metadata ∧ Passes crypto s role metadata ∧
      Accepts crypto s role metadata s' := by
  cases role with
  | root =>
    simp only [call, updateRoot, bind_eq_ok, refuse_eq_ok, not_not, Nat.not_lt,
      verifySignaturesWithKeys]
    constructor
    · rintro ⟨metadata, hparse, _, hrole, _, hspec, _, hversion, _, hold, _, hnew, hs'⟩
      exact ⟨.inl rfl, metadata, hparse, ⟨hrole, hspec, hversion, ⟨hold, hnew⟩, trivial⟩,
        ok.inj hs'⟩
    · rintro ⟨-, metadata, hparse, h, rfl⟩
      exact ⟨metadata, hparse, (), h.role_eq, (), h.spec, (), h.version, (), h.signed.1, (),
        h.signed.2, rfl⟩
  | timestamp =>
    simp only [call, verifyTimestamp, bind_eq_ok, refuse_eq_ok, not_not, Nat.not_lt, BitVec.not_le,
      checkVersion_eq_ok, verifySignatures_eq_ok]
    constructor
    · rintro ⟨_, hsize, metadata, hparse, _, hrole, _, hspec, _, hversion, _, hsigned, _, hexpires,
        named, hnamed, hs'⟩
      exact ⟨.inr hsize, metadata, hparse, ⟨hrole, hspec, hversion, hsigned, hexpires⟩,
        named, hnamed, ok.inj hs'⟩
    · rintro ⟨hsize, metadata, hparse, h, named, hnamed, rfl⟩
      exact ⟨(), hsize.resolve_left nofun, metadata, hparse, (), h.role_eq, (), h.spec, (),
        h.version, (), h.signed, (), h.expires, named, hnamed, rfl⟩
  | snapshot =>
    simp only [call, verifySnapshot, bind_eq_ok, refuse_eq_ok, not_not, Nat.not_lt, BitVec.not_le,
      checkVersion_eq_ok, verifySignatures_eq_ok, checkAgainstTimestamp_eq_ok]
    constructor
    · rintro ⟨_, hsize, metadata, hparse, _, hrole, _, hspec, _, hversion, _, hsigned, _, hexpires,
        _, hagree, metas, hmetas, hs'⟩
      exact ⟨.inr hsize, metadata, hparse, ⟨hrole, hspec, ⟨hversion, fun t ht => (hagree t ht).1⟩,
        hsigned, ⟨hexpires, fun t ht => (hagree t ht).2⟩⟩, metas, hmetas, ok.inj hs'⟩
    · rintro ⟨hsize, metadata, hparse, h, metas, hmetas, rfl⟩
      exact ⟨(), hsize.resolve_left nofun, metadata, hparse, (), h.role_eq, (), h.spec, (),
        h.version.1, (), h.signed, (), h.expires.1, (),
        fun t ht => ⟨h.version.2 t ht, h.expires.2 t ht⟩, metas, hmetas, rfl⟩
  | targets =>
    simp only [call, map_eq_ok, verifyTargets, bind_eq_ok, refuse_eq_ok, not_not, Nat.not_lt,
      BitVec.not_le, checkVersion_eq_ok, verifySignatures_eq_ok, checkAgainstSnapshot_eq_ok]
    constructor
    · rintro ⟨result, ⟨_, hsize, metadata, hparse, _, hrole, _, hspec, _, hversion, _, hsigned, _,
        hexpires, _, ⟨hcap, hnamed⟩, info, hinfo, hresult⟩, hs'⟩
      cases hresult
      exact ⟨.inr hsize, metadata, hparse, ⟨hrole, hspec, ⟨hversion, hnamed⟩, hsigned,
        ⟨hexpires, hcap⟩⟩, info, hinfo, hs'⟩
    · rintro ⟨hsize, metadata, hparse, h, info, hinfo, rfl⟩
      exact ⟨_, ⟨(), hsize.resolve_left nofun, metadata, hparse, (), h.role_eq, (), h.spec, (),
        h.version.1, (), h.signed, (), h.expires.1, (), ⟨h.expires.2, h.version.2⟩, info, hinfo,
        rfl⟩, rfl⟩

end TufVerifier

end EchOS.Security.Tuf
