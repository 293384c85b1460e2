import EchOS.Security.TufAuthenticity

/-! The chain of trust: a root vouches for the next one, a timestamp for the snapshot and a
snapshot for the targets. -/

namespace EchOS.Security.Tuf

open Fallible Option List TufVerifier

variable (crypto : Crypto)

def TufMetadata.SignedBy (metadata : TufMetadata) (keys : KeyId → Option TufKey) (n : ℕ) : Prop :=
  ∃ ids : List KeyId, ids.Nodup ∧ n ≤ ids.length ∧ ∀ id ∈ ids, Signs crypto keys metadata id

theorem signedBy_of_le {keys : KeyId → Option TufKey} {metadata : TufMetadata} {n : ℕ}
    (h : n ≤ validCount crypto keys metadata) : metadata.SignedBy crypto keys n := by
  obtain ⟨ids, hnodup, hlength, hmem⟩ := exists_signers crypto keys metadata
  exact ⟨ids, hnodup, hlength ▸ h, fun id => (hmem id).mp⟩

/-- The next root is signed by old and by own keys, each time to the old threshold. -/
theorem updateRoot_signed (s s' : TufVerifier) (data : List (BitVec 8))
    (h : s.updateRoot crypto data = .ok s') :
    s'.root.version.toNat = s.root.version.toNat + 1 ∧
      s'.root.SignedBy crypto s.root.keys (s.root.threshold .root) ∧
      s'.root.SignedBy crypto s'.root.keys (s.root.threshold .root) := by
  replace h : s.call crypto .root data = .ok s' := h
  obtain ⟨-, root, hparse, hpasses, rfl⟩ := call_eq_ok.mp h
  have hversion : root.version = s.root.version + 1 := hpasses.version
  have hpos := version_ne_zero_of_parse hparse
  refine ⟨?_, signedBy_of_le crypto hpasses.signed.1, signedBy_of_le crypto hpasses.signed.2⟩
  show root.version.toNat = _
  bv_omega

theorem updateRoot_signed_second : ∃ s, new plainCrypto 0 rootFile = .ok s ∧
    ∃ s', s.updateRoot plainCrypto (signedFile 0 2 0 [7, 8] [3, 2, 1, 2] []) = .ok s' ∧
      s'.root.SignedBy plainCrypto s'.root.keys (s.root.threshold .root) := by
  obtain ⟨s, hnew, s', hcall, -⟩ : ∃ s, new plainCrypto 0 rootFile = .ok s ∧
    ∃ s', s.updateRoot plainCrypto (signedFile 0 2 0 [7, 8] [3, 2, 1, 2] []) = .ok s' ∧
      s'.root.threshold .root = 3 := by decide +kernel
  exact ⟨s, hnew, s', hcall, (updateRoot_signed plainCrypto s s' _ hcall).2.2⟩

abbrev Call := TufRole × List (BitVec 8)

namespace TufVerifier

variable {crypto}

def onRecord (s : TufVerifier) (role : TufRole) : WithBot ℕ :=
  (s.recorded role).map fun r => r.version.toNat

theorem onRecord_le_step (s : TufVerifier) (role : TufRole) (op : Call) :
    s.onRecord role ≤ (s.step crypto op).onRecord role := by
  obtain ⟨called, data⟩ := op
  unfold step
  cases hcall : s.call crypto called data with
  | error e => exact le_rfl
  | ok s' =>
    obtain ⟨-, metadata, hparse, hpasses, haccepts⟩ := call_eq_ok.mp hcall
    by_cases hrole : called = role
    · subst hrole
      rw [onRecord, onRecord, haccepts.recorded_eq hpasses.role_eq]
      refine WithBot.le_coe_iff.mpr fun v hv => ?_
      obtain ⟨r, hr, rfl⟩ := map_eq_some_iff.mp hv
      have hversion := hpasses.version
      cases called with
      | root =>
        have hpos := version_ne_zero_of_parse hparse
        obtain rfl := some.inj hr
        change metadata.version = s.root.version + 1 at hversion
        show s.root.version.toNat ≤ metadata.version.toNat
        bv_omega
      | timestamp =>
        obtain ⟨p, hp, rfl⟩ := map_eq_some_iff.mp hr
        exact (hversion p hp).1
      | snapshot | targets =>
        obtain ⟨p, hp, rfl⟩ := map_eq_some_iff.mp hr
        exact (hversion.1 p hp).1
    · -- a call for one role leaves the record of the others alone
      refine ge_of_eq ?_
      cases called with
      | root =>
        subst haccepts
        cases role <;> first | exact absurd rfl hrole | rfl
      | timestamp | snapshot | targets =>
        obtain ⟨_, -, rfl⟩ := haccepts
        cases role <;> first | exact absurd rfl hrole | rfl

/-- No run takes a role back to an earlier version. -/
theorem onRecord_le_exec (crypto : Crypto) (s : TufVerifier) (role : TufRole) (ops : List Call) :
    s.onRecord role ≤ (Run.exec (step crypto) s ops).onRecord role := by
  refine Run.exec_invariant (I := fun s' => s.onRecord role ≤ onRecord s' role) ?_ (le_refl _) ops
  exact fun s' op h => h.trans (onRecord_le_step s' role op)

end TufVerifier

/-- The verifier, with the versions the last timestamp and snapshot give. -/
structure Chain where
  verifier : TufVerifier
  named : Option (BitVec 64)
  listed : Option (BitVec 64)

namespace Chain

def step (c : Chain) (op : Call) : Chain :=
  match c.verifier.call crypto op.1 op.2, parseMetadata crypto op.2, op.1 with
  | .ok s', .ok metadata, .timestamp =>
    ⟨s', (parseTimestampPayload metadata.payload).toOption.map Prod.fst, c.listed⟩
  | .ok s', .ok metadata, .snapshot =>
    ⟨s', c.named, (parseSnapshotPayload metadata.payload).toOption.bind fun metas =>
      (metas targetsName).map SnapshotMetaEntry.version⟩
  | .ok s', _, _ => { c with verifier := s' }
  | .error _, _, _ => c

/-- Snapshots and targets are accepted with the version given. -/
def Follows (c : Chain) (op : Call) : Prop :=
  ∀ s' metadata, c.verifier.call crypto op.1 op.2 = .ok s' →
    parseMetadata crypto op.2 = .ok metadata →
      (op.1 = .snapshot → c.named = some metadata.version) ∧
      (op.1 = .targets → c.listed = some metadata.version)

/-- A version is given, and for snapshots it is still the one on record. -/
abbrev Given (c : Chain) (op : Call) : Prop :=
  (op.1 = .snapshot → c.named.isSome ∧ c.verifier.snapshotMetaVersions snapshotName = c.named) ∧
    (op.1 = .targets → c.listed.isSome)

structure Sound (c : Chain) : Prop where
  named : c.named.isSome → c.verifier.latestTimestamp.isSome
  listed : ∀ v, c.listed = some v → c.verifier.snapshotMetaVersions targetsName = some v

variable {crypto}

theorem sound_step {c : Chain} (h : c.Sound) (op : Call) : (c.step crypto op).Sound := by
  obtain ⟨role, data⟩ := op
  cases hcall : c.verifier.call crypto role data with
  | error e =>
    simp only [step, hcall]
    exact h
  | ok s' =>
    obtain ⟨-, metadata, hparse, -, haccepts⟩ := call_eq_ok.mp hcall
    simp only [step, hcall, hparse]
    cases role with
    | root =>
      obtain rfl := haccepts
      exact ⟨h.named, h.listed⟩
    | timestamp =>
      obtain ⟨named, -, rfl⟩ := haccepts
      refine ⟨fun _ => rfl, fun v hv => ?_⟩
      rw [acceptTimestamp]
      simpa [snapshotName, targetsName] using h.listed v hv
    | snapshot =>
      obtain ⟨metas, hmetas, rfl⟩ := haccepts
      refine ⟨h.named, fun v hv => ?_⟩
      obtain ⟨entry, hentry, rfl⟩ :
          ∃ entry, metas targetsName = some entry ∧ entry.version = v := by
        simpa [hmetas, Except.toOption] using hv
      simp [acceptSnapshot, hentry]
    | targets =>
      obtain ⟨info, -, rfl⟩ := haccepts
      exact ⟨h.named, h.listed⟩

theorem follows_of_given {c : Chain} (h : c.Sound) {op : Call}
    (hgiven : c.Given op) : c.Follows crypto op := by
  obtain ⟨role, data⟩ := op
  intro s' metadata hcall hparse
  obtain ⟨-, _, hparse', hpasses, -⟩ := call_eq_ok.mp hcall
  obtain rfl := Except.ok.inj (hparse.symm.trans hparse')
  constructor
  · rintro rfl
    obtain ⟨hnamed, hrecord⟩ := hgiven.1 rfl
    obtain ⟨timestamp, htimestamp⟩ := isSome_iff_exists.mp (h.named hnamed)
    exact hrecord.symm.trans (hpasses.version.2 timestamp htimestamp)
  · rintro rfl
    obtain ⟨v, hv⟩ := isSome_iff_exists.mp (hgiven.2 rfl)
    rw [hpasses.version.2 v (h.listed v hv)]
    exact hv

/-- The chain holds in every run in which each snapshot and targets file finds a version. -/
theorem follows_along (crypto : Crypto) (s₀ : TufVerifier) (ops : List Call)
    (h : Run.Along (step crypto) Given ⟨s₀, none, none⟩ ops) :
    Run.Along (step crypto) (Follows crypto) ⟨s₀, none, none⟩ ops := by
  have hstart : Sound ⟨s₀, none, none⟩ := ⟨nofun, nofun⟩
  exact h.safety (I := Sound) (fun c op hc _ => sound_step hc op)
    (fun c op hc hgiven => follows_of_given hc hgiven) hstart

/-- A snapshot that lists `targets.json` with version 5. -/
def listingFile : List (BitVec 8) :=
  signedFile 2 3 1 [7] [] (Bytes.toLe 4 1 ++
    [12, 0, 116, 97, 114, 103, 101, 116, 115, 46, 106, 115, 111, 110] ++
    Bytes.toLe 8 5 ++ Bytes.toLe 8 0 ++ [0])

def updateCalls : List Call :=
  [(.timestamp, timestampFile 1 1), (.snapshot, listingFile),
    (.targets, signedFile 3 5 1 [7, 8] [] [0, 0, 0, 0])]

theorem follows_along_targets : ∃ s₀, new plainCrypto 0 rootFile = .ok s₀ ∧
    (Run.exec (step plainCrypto) ⟨s₀, none, none⟩
      updateCalls).verifier.latestTargets.isSome = true ∧
    Run.Along (step plainCrypto) (Follows plainCrypto) ⟨s₀, none, none⟩ updateCalls := by
  obtain ⟨s₀, hnew, htargets, hgiven⟩ : ∃ s₀, new plainCrypto 0 rootFile = .ok s₀ ∧
      (Run.exec (step plainCrypto) ⟨s₀, none, none⟩ updateCalls).verifier.latestTargets.isSome =
        true ∧
      Run.Along (step plainCrypto) Given ⟨s₀, none, none⟩ updateCalls := by decide +kernel
  exact ⟨s₀, hnew, htargets, follows_along plainCrypto s₀ updateCalls hgiven⟩

end Chain

end EchOS.Security.Tuf
