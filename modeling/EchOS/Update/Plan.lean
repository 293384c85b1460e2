import EchOS.Boot.ControlBlock
import EchOS.Lib.Fallible

/-! The update planner of `update.rs`: which operations a list of artifacts gives, and on which
partition the staged ones land. -/

namespace EchOS.Boot

def SlotId.systemPartitionLabel : SlotId → String
  | .systemA => "system_a"
  | .systemB => "system_b"
  | .recovery => "recovery"
  | .none => "system_a"

theorem SlotId.label_ne_iff {slot active : SlotId} (h : slot ≠ active) :
    slot.systemPartitionLabel ≠ active.systemPartitionLabel ↔
      (active = .systemA → slot ≠ .none) ∧ (active = .none → slot ≠ .systemA) := by
  cases slot <;> cases active <;> first | exact absurd rfl h | decide

end EchOS.Boot

namespace EchOS.Update

open EchOS.Boot Except

inductive UpdateArtifactKind
  | platformImage | serviceBundle | userBundle | seedCatalog | revocationFeed
  deriving DecidableEq

structure UpdateArtifact where
  id : String
  version : String
  source : String
  kind : UpdateArtifactKind
  bytes : UInt64
  digest : Vector UInt8 32
  rebootRequired : Bool
  packageId : Option String
  requestedSlot : Option SlotId
  deriving DecidableEq

inductive UpdateOperationKind
  | publishRevocationFeed
  | installSeedCatalog
  | stagePlatformImage (targetSlot : SlotId)
  | stageServiceBundle (targetSlot : SlotId)
  | installServiceBundle (rebootRequired : Bool)
  | installUserBundle
  | armBootControl (targetSlot : SlotId)
  deriving DecidableEq

structure UpdateOperation where
  artifactId : String
  kind : UpdateOperationKind
  deriving DecidableEq

inductive UpdatePlanClass
  | noOp | liveOnly | rebootRequired | mixed
  deriving DecidableEq

structure UpdatePlan where
  planClass : UpdatePlanClass
  targetSlot : Option SlotId
  requiresReboot : Bool
  totalDownloadBytes : UInt64
  affectedPackages : List String
  operations : List UpdateOperation
  deriving DecidableEq

inductive UpdatePlanError
  | missingPackageIdentity (artifactId : String) (kind : UpdateArtifactKind)
  | conflictingTargetSlots (existing requested : SlotId)
  | platformTargetsActiveSlot (artifactId : String) (activeSlot : SlotId)
  deriving DecidableEq

/-- How planning can end without a plan: an error, or an `expect` that fails. -/
inductive PlanStop
  | error (e : UpdatePlanError)
  | panicked (message : String)
  deriving DecidableEq

variable (artifact : UpdateArtifact)

def UpdateArtifact.requiresSlotStaging : Bool :=
  artifact.kind == .platformImage ||
    (artifact.kind == .serviceBundle && artifact.rebootRequired)

def UpdateArtifact.packageIdOrErr : Except UpdatePlanError String :=
  match artifact.packageId with
  | some packageId => .ok packageId
  | none => .error (.missingPackageIdentity artifact.id artifact.kind)

def UpdateOperationKind.isLive : UpdateOperationKind → Bool
  | .installUserBundle | .installServiceBundle _ | .publishRevocationFeed
  | .installSeedCatalog => true
  | _ => false

def UpdateOperationKind.isSlotLane : UpdateOperationKind → Bool
  | .stagePlatformImage _ | .stageServiceBundle _ | .armBootControl _ => true
  | _ => false

def classifyPlan (operations : List UpdateOperation) (requiresReboot : Bool) : UpdatePlanClass :=
  if operations.isEmpty then .noOp
  else
    match operations.any (·.kind.isLive), operations.any (·.kind.isSlotLane), requiresReboot with
    | false, false, _ => .noOp
    | true, false, false => .liveOnly
    | true, false, true | false, true, true => .rebootRequired
    | true, true, _ => .mixed
    | false, true, false => .rebootRequired

def pushAffectedPackage (packages : List String) (packageId : String) : List String :=
  if packages.any (· == packageId) then packages else packages ++ [packageId]

def UpdateArtifact.requested (activeSlot : SlotId) : SlotId :=
  artifact.requestedSlot.getD activeSlot.inactivePair

def resolveTargetSlot (activeSlot : SlotId) (current : Option SlotId)
    (artifact : UpdateArtifact) : Except UpdatePlanError (Option SlotId) :=
  if !artifact.requiresSlotStaging then .ok current
  else if artifact.requested activeSlot = activeSlot then
    .error (.platformTargetsActiveSlot artifact.id activeSlot)
  else
    match current with
    | some existing =>
      if existing ≠ artifact.requested activeSlot then
        .error (.conflictingTargetSlots existing (artifact.requested activeSlot))
      else .ok (some (artifact.requested activeSlot))
    | none => .ok (some (artifact.requested activeSlot))

structure PlanState where
  operations : List UpdateOperation := []
  affectedPackages : List String := []
  totalDownloadBytes : UInt64 := 0
  requiresReboot : Bool := false

def saturatingAdd (a b : UInt64) : UInt64 :=
  if a.toNat + b.toNat < 2 ^ 64 then a + b else UInt64.ofNat (2 ^ 64 - 1)

def expectSlot (slot : Option SlotId) (message : String) : Except PlanStop SlotId :=
  match slot with
  | some slot => .ok slot
  | none => .error (.panicked message)

def PlanState.push (st : PlanState) (artifact : UpdateArtifact) (kind : UpdateOperationKind) :
    PlanState :=
  { st with operations := st.operations ++ [⟨artifact.id, kind⟩] }

def planArtifact (targetSlot : Option SlotId) (st : PlanState) (artifact : UpdateArtifact) :
    Except PlanStop PlanState := do
  let st := { st with totalDownloadBytes := saturatingAdd st.totalDownloadBytes artifact.bytes }
  match artifact.kind with
  | .revocationFeed => return st.push artifact .publishRevocationFeed
  | .seedCatalog => return st.push artifact .installSeedCatalog
  | .platformImage =>
    let slot ← expectSlot targetSlot "platform image requires target slot"
    return { st with requiresReboot := true }.push artifact (.stagePlatformImage slot)
  | .serviceBundle =>
    let packageId ← artifact.packageIdOrErr.mapError .error
    let st := { st with affectedPackages := pushAffectedPackage st.affectedPackages packageId }
    if artifact.rebootRequired then
      let slot ← expectSlot targetSlot "reboot-required service bundle requires target slot"
      return { st with requiresReboot := true }.push artifact (.stageServiceBundle slot)
    else return st.push artifact (.installServiceBundle false)
  | .userBundle =>
    let packageId ← artifact.packageIdOrErr.mapError .error
    let st := { st with affectedPackages := pushAffectedPackage st.affectedPackages packageId }
    return st.push artifact .installUserBundle

def armOperation : Option SlotId → List UpdateOperation
  | some slot => [⟨"boot-control", .armBootControl slot⟩]
  | none => []

def planUpdate (activeSlot : SlotId) (artifacts : List UpdateArtifact) :
    Except PlanStop UpdatePlan := do
  let targetSlot ← (artifacts.foldlM (resolveTargetSlot activeSlot) none).mapError .error
  let st ← artifacts.foldlM (planArtifact targetSlot) {}
  let operations := st.operations ++ armOperation targetSlot
  return ⟨classifyPlan operations st.requiresReboot, targetSlot, st.requiresReboot,
    st.totalDownloadBytes, st.affectedPackages, operations⟩

def UpdateOperationKind.stagedSlot : UpdateOperationKind → Option SlotId
  | .stagePlatformImage slot | .stageServiceBundle slot => some slot
  | _ => none

/-- The kind of operation an artifact asks for; what is staged goes to the slot. -/
def UpdateArtifact.operationKind (slot : SlotId) : UpdateOperationKind :=
  match artifact.kind with
  | .revocationFeed => .publishRevocationFeed
  | .seedCatalog => .installSeedCatalog
  | .platformImage => .stagePlatformImage slot
  | .serviceBundle =>
    if artifact.rebootRequired then .stageServiceBundle slot else .installServiceBundle false
  | .userBundle => .installUserBundle

theorem stagedSlot_operationKind (slot : SlotId) : (artifact.operationKind slot).stagedSlot =
      if artifact.requiresSlotStaging then some slot else none := by
  unfold UpdateArtifact.operationKind UpdateArtifact.requiresSlotStaging
  cases artifact.kind <;> cases artifact.rebootRequired <;> rfl

def UpdateArtifact.operation (slot : SlotId) (artifact : UpdateArtifact) : UpdateOperation :=
  ⟨artifact.id, artifact.operationKind slot⟩

variable {activeSlot : SlotId} {artifacts : List UpdateArtifact}
  {current targetSlot : Option SlotId} {slot : SlotId} (st : PlanState)

theorem resolveTargetSlot_eq_ok {next : Option SlotId} {artifact : UpdateArtifact}
    (h : resolveTargetSlot activeSlot current artifact = .ok next) :
    if artifact.requiresSlotStaging then
      artifact.requested activeSlot ≠ activeSlot ∧ next = some (artifact.requested activeSlot) ∧
        ∀ slot ∈ current, slot = artifact.requested activeSlot
    else next = current := by
  unfold resolveTargetSlot at h
  by_cases hstage : artifact.requiresSlotStaging
  · simp only [hstage, Bool.not_true, Bool.false_eq_true, if_false, if_true] at h ⊢
    split_ifs at h with hactive
    cases current with
    | none => exact ⟨hactive, (ok.inj h).symm, by simp⟩
    | some existing =>
      simp only [ne_eq, ite_not] at h
      split_ifs at h with hsame
      exact ⟨hactive, (ok.inj h).symm, by simpa using hsame⟩
  · rw [if_pos (by simpa using hstage)] at h
    rw [if_neg hstage]
    exact (ok.inj h).symm

/-- There is a target if and only if something is staged; it is the slot that every staged
artifact asks for, and not the active one. -/
theorem resolveTargetSlot_fold {target : Option SlotId}
    (h : artifacts.foldlM (resolveTargetSlot activeSlot) current = .ok target) :
    (∀ slot ∈ current, target = some slot) ∧
      target.isSome = (current.isSome || artifacts.any (·.requiresSlotStaging)) ∧
      ∀ artifact ∈ artifacts, artifact.requiresSlotStaging →
        target = some (artifact.requested activeSlot) ∧
          artifact.requested activeSlot ≠ activeSlot := by
  induction artifacts generalizing current with
  | nil =>
    obtain rfl : current = target := ok.inj h
    simp
  | cons artifact artifacts ih =>
    rw [List.foldlM_cons, Fallible.bind_eq_ok] at h
    obtain ⟨next, hnext, hrest⟩ := h
    obtain ⟨hkept, hsome, hall⟩ := ih hrest
    have hstep := resolveTargetSlot_eq_ok hnext
    rw [hsome, List.forall_mem_cons]
    split_ifs at hstep with hstage
    · obtain ⟨hactive, rfl, hsame⟩ := hstep
      have htarget := hkept _ rfl
      exact ⟨fun slot hslot => hsame slot hslot ▸ htarget, by simp [hstage],
        fun _ => ⟨htarget, hactive⟩, hall⟩
    · subst hstep
      exact ⟨hkept, by simp [hstage], (absurd · hstage), hall⟩

theorem planArtifact_cases {artifact : UpdateArtifact}
    (hslot : artifact.requiresSlotStaging → targetSlot = some slot) :
    (∃ e, planArtifact targetSlot st artifact = .error (.error e)) ∨
      ∃ st', planArtifact targetSlot st artifact = .ok st' ∧
        st'.operations = st.operations ++ [artifact.operation slot] ∧
        st'.requiresReboot = (st.requiresReboot || artifact.requiresSlotStaging) := by
  unfold planArtifact UpdateArtifact.operation UpdateArtifact.operationKind
  unfold UpdateArtifact.requiresSlotStaging at hslot ⊢
  cases hkind : artifact.kind with
  | revocationFeed | seedCatalog => exact .inr ⟨_, rfl, rfl, (Bool.or_false _).symm⟩
  | platformImage =>
    rw [hslot (by rw [hkind]; rfl)]
    exact .inr ⟨_, rfl, rfl, (Bool.or_true _).symm⟩
  | userBundle =>
    unfold UpdateArtifact.packageIdOrErr
    cases artifact.packageId with
    | none => exact .inl ⟨_, rfl⟩
    | some packageId => exact .inr ⟨_, rfl, rfl, (Bool.or_false _).symm⟩
  | serviceBundle =>
    unfold UpdateArtifact.packageIdOrErr
    cases artifact.packageId with
    | none => exact .inl ⟨_, rfl⟩
    | some packageId =>
      cases hreboot : artifact.rebootRequired with
      | false => exact .inr ⟨_, rfl, rfl, (Bool.or_false _).symm⟩
      | true =>
        rw [hslot (by rw [hkind, hreboot]; rfl)]
        exact .inr ⟨_, rfl, rfl, (Bool.or_true _).symm⟩

theorem planArtifact_fold
    (hslot : ∀ artifact ∈ artifacts, artifact.requiresSlotStaging → targetSlot = some slot) :
    (∃ e, artifacts.foldlM (planArtifact targetSlot) st = .error (.error e)) ∨
      ∃ st', artifacts.foldlM (planArtifact targetSlot) st = .ok st' ∧
        st'.operations = st.operations ++ artifacts.map (·.operation slot) ∧
        st'.requiresReboot = (st.requiresReboot || artifacts.any (·.requiresSlotStaging)) := by
  induction artifacts generalizing st with
  | nil => exact .inr ⟨st, rfl, by simp⟩
  | cons artifact artifacts ih =>
    obtain ⟨hfirst, hrest⟩ := List.forall_mem_cons.mp hslot
    rw [List.foldlM_cons]
    rcases planArtifact_cases st hfirst with ⟨e, he⟩ | ⟨next, hnext, hoperations, hreboot⟩
    · rw [he]
      exact .inl ⟨e, rfl⟩
    · rw [hnext]
      rcases ih next hrest with hstop | ⟨st', hst', hoperations', hreboot'⟩
      · exact .inl hstop
      · refine .inr ⟨st', hst', ?_, ?_⟩
        · rw [hoperations', hoperations, List.append_assoc]
          rfl
        · rw [hreboot', hreboot, List.any_cons, Bool.or_assoc]

/-- Every artifact gives its operation, in order, and the staged ones agree on a slot that is not
the active one. -/
structure UpdatePlan.Covers (plan : UpdatePlan) (activeSlot : SlotId)
    (artifacts : List UpdateArtifact) (slot : SlotId) : Prop where
  operations : plan.operations = artifacts.map (·.operation slot) ++ armOperation plan.targetSlot
  requiresReboot : plan.requiresReboot = artifacts.any (·.requiresSlotStaging)
  targetSlot : plan.targetSlot =
    if artifacts.any (·.requiresSlotStaging) then some slot else none
  slots : ∀ artifact ∈ artifacts, artifact.requiresSlotStaging →
    slot = artifact.requested activeSlot ∧ slot ≠ activeSlot

theorem planUpdate_cases (activeSlot : SlotId) (artifacts : List UpdateArtifact) :
    (∃ e, planUpdate activeSlot artifacts = .error (.error e)) ∨
      ∃ plan slot, planUpdate activeSlot artifacts = .ok plan ∧
        plan.Covers activeSlot artifacts slot := by
  unfold planUpdate
  cases htarget : artifacts.foldlM (resolveTargetSlot activeSlot) none with
  | error e => exact .inl ⟨e, rfl⟩
  | ok target =>
    obtain ⟨-, hsome, hslots⟩ := resolveTargetSlot_fold htarget
    have hslot : ∀ artifact ∈ artifacts, artifact.requiresSlotStaging →
        target = some (target.getD .none) := by
      intro artifact hmem hstage
      rw [(hslots artifact hmem hstage).1]
      rfl
    simp only [Except.mapError, bind, Except.bind]
    rcases planArtifact_fold {} hslot with ⟨e, he⟩ | ⟨st, hst, hoperations, hreboot⟩
    · exact .inl ⟨e, by rw [he]⟩
    · rw [hst]
      refine .inr ⟨_, target.getD .none, rfl,
        congrArg (· ++ armOperation target) hoperations, hreboot, ?_, ?_⟩
      · rw [← show target.isSome = artifacts.any (·.requiresSlotStaging) from hsome]
        cases target <;> rfl
      · intro artifact hmem hstage
        obtain ⟨rfl, hactive⟩ := hslots artifact hmem hstage
        exact ⟨rfl, hactive⟩

theorem planUpdate_covers {plan : UpdatePlan} (h : planUpdate activeSlot artifacts = .ok plan) :
    ∃ slot, plan.Covers activeSlot artifacts slot := by
  rcases planUpdate_cases activeSlot artifacts with ⟨e, he⟩ | ⟨plan', slot, hplan, hcovers⟩
  · exact nomatch he.symm.trans h
  · obtain rfl := ok.inj (hplan.symm.trans h)
    exact ⟨slot, hcovers⟩

/-- Every staging operation of the plan writes to another partition than the active slot's. -/
def UpdatePlan.StagesApart (plan : UpdatePlan) (activeSlot : SlotId) : Prop :=
  ∀ operation ∈ plan.operations, ∀ slot ∈ operation.kind.stagedSlot,
    slot.systemPartitionLabel ≠ activeSlot.systemPartitionLabel

/-- No staged artifact asks for the empty slot while system A runs, nor for system A, by name
or by default, while the empty slot is the active one. -/
def RequestsApart (activeSlot : SlotId) (artifacts : List UpdateArtifact) : Prop :=
  ∀ artifact ∈ artifacts, artifact.requiresSlotStaging →
    (activeSlot = .systemA → artifact.requestedSlot ≠ some .none) ∧
      (activeSlot = .none → artifact.requestedSlot ≠ some .systemA ∧
        artifact.requestedSlot ≠ none)

theorem requested_apart_iff {artifact : UpdateArtifact}
    (h : artifact.requested activeSlot ≠ activeSlot) :
    (artifact.requested activeSlot).systemPartitionLabel ≠ activeSlot.systemPartitionLabel ↔
      (activeSlot = .systemA → artifact.requestedSlot ≠ some .none) ∧
        (activeSlot = .none → artifact.requestedSlot ≠ some .systemA ∧
          artifact.requestedSlot ≠ none) := by
  rw [SlotId.label_ne_iff h]
  unfold UpdateArtifact.requested
  cases artifact.requestedSlot <;> cases activeSlot <;> simp [SlotId.inactivePair]

theorem plan_stages_apart_iff {activeSlot : SlotId} {artifacts : List UpdateArtifact}
    {plan : UpdatePlan} (h : planUpdate activeSlot artifacts = .ok plan) :
    plan.StagesApart activeSlot ↔ RequestsApart activeSlot artifacts := by
  obtain ⟨slot, hoperations, -, -, hslots⟩ := planUpdate_covers h
  constructor
  · intro hapart artifact hmem hstage
    obtain ⟨rfl, hactive⟩ := hslots artifact hmem hstage
    rw [← requested_apart_iff hactive]
    refine hapart (artifact.operation (artifact.requested activeSlot)) ?_ _ ?_
    · rw [hoperations]
      exact List.mem_append_left _ (List.mem_map_of_mem hmem)
    · rw [UpdateArtifact.operation, stagedSlot_operationKind, if_pos hstage]
      rfl
  · intro hrequests operation hmem staged hstaged
    rw [hoperations, List.mem_append, List.mem_map] at hmem
    rcases hmem with ⟨artifact, hmem, rfl⟩ | harm
    · rw [UpdateArtifact.operation, stagedSlot_operationKind] at hstaged
      split_ifs at hstaged with hstage
      · cases hstaged
        obtain ⟨rfl, hactive⟩ := hslots artifact hmem hstage
        exact (requested_apart_iff hactive).mpr (hrequests artifact hmem hstage)
      · cases hstaged
    · -- the operation that arms the boot control block stages nothing
      cases htarget : plan.targetSlot with
      | none => simp [htarget, armOperation] at harm
      | some target =>
        rw [htarget, armOperation, List.mem_singleton] at harm
        subst harm
        cases hstaged

/-- A plan has an operation for each artifact, in order, all staged to one slot, and arms the boot
control block for that slot at the end, and asks for a reboot, if and only if something is staged.
The planner never runs into an `expect`. -/
theorem planUpdate_complete (activeSlot : SlotId) (artifacts : List UpdateArtifact) :
    (∀ plan, planUpdate activeSlot artifacts = .ok plan → ∃ slot,
      plan.operations = artifacts.map (·.operation slot) ++
        (if artifacts.any (·.requiresSlotStaging) then [⟨"boot-control", .armBootControl slot⟩]
          else []) ∧
      plan.requiresReboot = artifacts.any (·.requiresSlotStaging)) ∧
    ∀ message, planUpdate activeSlot artifacts ≠ .error (.panicked message) := by
  constructor
  · intro plan h
    obtain ⟨slot, hoperations, hreboot, htarget, -⟩ := planUpdate_covers h
    refine ⟨slot, ?_, hreboot⟩
    rw [hoperations, htarget]
    split_ifs <;> rfl
  · intro message h
    rcases planUpdate_cases activeSlot artifacts with ⟨e, he⟩ | ⟨plan, _, hplan, -⟩
    · exact nomatch he.symm.trans h
    · exact nomatch hplan.symm.trans h

def platformImage (requestedSlot : Option SlotId) : UpdateArtifact :=
  ⟨"platform", "2", "store:/platform.img", .platformImage, 4096, Vector.replicate 32 0, true, none,
    requestedSlot⟩

theorem plan_stages_apart_iff_default :
    ∃ plan, planUpdate .systemA [platformImage none] = .ok plan ∧
      (plan.StagesApart .systemA ↔ RequestsApart .systemA [platformImage none]) :=
  ⟨_, rfl, plan_stages_apart_iff rfl⟩

/-- An image for the empty slot is staged over the running system A. -/
theorem plan_stages_over_system_a :
    ∃ plan, planUpdate .systemA [platformImage (some .none)] = .ok plan ∧
      ⟨"platform", .stagePlatformImage .none⟩ ∈ plan.operations ∧
      SlotId.none.systemPartitionLabel = SlotId.systemA.systemPartitionLabel :=
  ⟨_, rfl, by decide, rfl⟩

end EchOS.Update
