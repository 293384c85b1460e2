import EchOS.Update.Plan

/-! How `apply_inspection` of `update.rs` carries out a plan: every operation looks its artifact up
by its id, reads the payload and checks it against what it has found. -/

namespace EchOS.Update

open EchOS.Boot Option Fallible

inductive ApplyError (ε : Type)
  | invalidFormat
  | artifactDigestMismatch (artifactId : String)
  | service (e : ε)

/-- The hash, and how the services answer the calls of the `k`-th operation: a locator is read, and
the operation is carried out. Operations change the store, so that the answers depend on `k`. -/
structure Services (ε : Type) where
  sha256 : List UInt8 → Vector UInt8 32
  readLocator : ℕ → String → Except ε (List UInt8)
  carryOut : ℕ → Except ε Unit

/-- An operation that was carried out, with its payload. Arming the boot control block has none. -/
structure Applied where
  operation : UpdateOperation
  payload : Option (List UInt8)

variable {ε : Type} (services : Services ε) (artifacts : List UpdateArtifact)

def Validates (artifact : UpdateArtifact) (payload : List UInt8) : Prop :=
  artifact.bytes = UInt64.ofNat payload.length ∧ artifact.digest = services.sha256 payload

instance (artifact : UpdateArtifact) (payload : List UInt8) :
    Decidable (Validates services artifact payload) := inferInstanceAs (Decidable (_ ∧ _))

def validateArtifactBytes (artifact : UpdateArtifact) (payload : List UInt8) :
    Except (ApplyError ε) Unit :=
  if Validates services artifact payload then .ok ()
  else .error (.artifactDigestMismatch artifact.id)

def findArtifact (id : String) : Except (ApplyError ε) UpdateArtifact :=
  match artifacts.find? (·.id == id) with
  | some artifact => .ok artifact
  | none => .error .invalidFormat

def payloadFor (k : ℕ) (operation : UpdateOperation) :
    Except (ApplyError ε) (Option (List UInt8)) :=
  match operation.kind with
  | .armBootControl _ => .ok none
  | _ => do
    let artifact ← findArtifact artifacts operation.artifactId
    let payload ← (services.readLocator k artifact.source).mapError .service
    validateArtifactBytes services artifact payload
    return some payload

def applyOperations : ℕ → List UpdateOperation → List Applied × Except (ApplyError ε) Unit
  | _, [] => ([], .ok ())
  | k, operation :: rest =>
    match payloadFor services artifacts k operation with
    | .error e => ([], .error e)
    | .ok payload =>
      match services.carryOut k with
      | .error e => ([⟨operation, payload⟩], .error (.service e))
      | .ok _ =>
        let (applied, result) := applyOperations (k + 1) rest
        (⟨operation, payload⟩ :: applied, result)

variable {services artifacts} {operations : List UpdateOperation} {applied : Applied}

theorem operation_of_applied {j k : ℕ}
    (h : (applyOperations services artifacts j operations).1[k]? = some applied) :
    operations[k]? = some applied.operation ∧
      payloadFor services artifacts (j + k) applied.operation = .ok applied.payload := by
  fun_induction applyOperations services artifacts j operations generalizing k with
  | case1 | case2 => cases h
  | case3 j operation rest payload hpayload e he =>
    cases k with
    | zero =>
      cases h
      exact ⟨rfl, hpayload⟩
    | succ k => cases h
  | case4 j operation rest payload hpayload done hdone first result hrest ih =>
    cases k with
    | zero =>
      cases h
      exact ⟨rfl, hpayload⟩
    | succ k =>
      rw [hrest] at ih
      have hlater := ih h
      rwa [Nat.add_assoc, Nat.add_comm 1 k] at hlater

theorem payloadFor_eq_some {k : ℕ} {operation : UpdateOperation} {payload : List UInt8}
    (h : payloadFor services artifacts k operation = .ok (some payload)) :
    (∀ slot, operation.kind ≠ .armBootControl slot) ∧
      ∃ first, artifacts.find? (·.id == operation.artifactId) = some first ∧
        Validates services first payload := by
  unfold payloadFor at h
  split at h
  · cases h
  · rename_i hkind
    refine ⟨hkind, ?_⟩
    obtain ⟨first, hfirst, h⟩ := bind_eq_ok.mp h
    obtain ⟨read, -, h⟩ := bind_eq_ok.mp h
    obtain ⟨_, hvalid, h⟩ := bind_eq_ok.mp h
    obtain rfl : read = payload := some.inj (Except.ok.inj h)
    unfold findArtifact at hfirst
    unfold validateArtifactBytes at hvalid
    split at hfirst
    · rename_i found hfound
      obtain rfl := Except.ok.inj hfirst
      split_ifs at hvalid with hok
      exact ⟨found, hfound, hok⟩
    · cases hfirst

/-- A payload is applied for an entry of the list, and it has the size and the digest of that entry
exactly if the first entry with its id has the same. -/
theorem applied_payload_validated_iff {activeSlot : SlotId} {plan : UpdatePlan}
    (hplan : planUpdate activeSlot artifacts = .ok plan) {k : ℕ} {operation : UpdateOperation}
    {payload : List UInt8}
    (h : (applyOperations services artifacts 0 plan.operations).1[k]? =
      some ⟨operation, some payload⟩) :
    ∃ artifact slot, artifacts[k]? = some artifact ∧ operation = artifact.operation slot ∧
      (Validates services artifact payload ↔
        ∃ first, artifacts.find? (·.id == artifact.id) = some first ∧
          first.bytes = artifact.bytes ∧ first.digest = artifact.digest) := by
  obtain ⟨slot, hcovers⟩ := planUpdate_covers hplan
  obtain ⟨hoperation, hpayload⟩ := operation_of_applied h
  obtain ⟨hkind, first, hfirst, hbytes, hdigest⟩ := payloadFor_eq_some hpayload
  rw [hcovers.operations, List.getElem?_append, List.getElem?_map] at hoperation
  split_ifs at hoperation with hk
  · obtain ⟨artifact, hartifact, rfl⟩ := map_eq_some_iff.mp hoperation
    refine ⟨artifact, slot, hartifact, rfl, ?_, ?_⟩
    · rintro ⟨hbytes', hdigest'⟩
      exact ⟨first, hfirst, hbytes.trans hbytes'.symm, hdigest.trans hdigest'.symm⟩
    · rintro ⟨first', hfirst', hsame⟩
      obtain rfl := some.inj (hfirst.symm.trans hfirst')
      exact ⟨hsame.1.symm.trans hbytes, hsame.2.symm.trans hdigest⟩
  · -- behind the artifacts there is only the operation without a payload
    have harm := List.mem_of_getElem? hoperation
    cases htarget : plan.targetSlot with
    | none => simp [htarget, armOperation] at harm
    | some target =>
      rw [htarget, armOperation, List.mem_singleton] at harm
      exact absurd (congrArg UpdateOperation.kind harm) (hkind target)

/-- A store with two files. In place of the hash stand the first 32 bytes. -/
def twoFiles : Services Unit where
  sha256 payload := Vector.ofFn fun i => payload.getD i 0
  readLocator _ source := .ok (if source = "store:/feed" then [7] else [8, 9])
  carryOut _ := .ok ()

def entry (id : String) (payload : List UInt8) : UpdateArtifact where
  id
  version := "1"
  source := "store:/" ++ id
  kind := .revocationFeed
  bytes := UInt64.ofNat payload.length
  digest := twoFiles.sha256 payload
  rebootRequired := false
  packageId := none
  requestedSlot := none

def entries : List UpdateArtifact := [entry "feed" [7], entry "other" [8, 9], entry "feed" [7]]

theorem applied_payload_validated_other :
    ∃ artifact slot, entries[1]? = some artifact ∧
      (⟨"other", .publishRevocationFeed⟩ : UpdateOperation) = artifact.operation slot ∧
      Validates twoFiles artifact [8, 9] := by
  obtain ⟨artifact, slot, hentry, hoperation, hiff⟩ :=
    @applied_payload_validated_iff _ twoFiles entries .systemA _ rfl 1 _ _ rfl
  obtain rfl := some.inj hentry
  exact ⟨_, slot, rfl, hoperation, hiff.mpr ⟨entry "other" [8, 9], rfl, rfl, rfl⟩⟩

/-- The second of two entries with one id has the payload of the first. -/
theorem second_entry_gets_first_payload :
    ∃ plan, planUpdate .systemA [entry "feed" [7], entry "feed" [8, 9]] = .ok plan ∧
      (applyOperations twoFiles [entry "feed" [7], entry "feed" [8, 9]] 0 plan.operations).1[1]? =
        some ⟨⟨"feed", .publishRevocationFeed⟩, some [7]⟩ ∧
      ¬ Validates twoFiles (entry "feed" [8, 9]) [7] :=
  ⟨_, rfl, rfl, by decide⟩

end EchOS.Update
