import EchOS.Boot.Slots

/-! Runs of the boot control operations, and what abandoning a slot falls back to.
The block does not store the last good slot, so the history carries it. -/
namespace EchOS.Boot

open BootControlBlock

inductive Op
  | beginBoot
  | stageUpdate (target : SlotId)
  | publishStage (stage : BootStage)
  | markBootSuccess
  | recordPanic (stage : BootStage)
  | rollbackToStable (reason : RollbackReason)
  deriving DecidableEq

def step (b : BootControlBlock) : Op → BootControlBlock
  | .beginBoot => b.beginBoot
  | .stageUpdate t => b.stageUpdate t
  | .publishStage st => b.publishStage st
  | .markBootSuccess => b.markBootSuccess
  | .recordPanic st => b.recordPanic st
  | .rollbackToStable r => b.rollbackToStable r

def Abandons (b : BootControlBlock) : Op → Prop
  | .beginBoot => b.attemptsRemaining = 0
  | .rollbackToStable _ => True
  | _ => False

instance (b : BootControlBlock) (op : Op) : Decidable (Abandons b op) := by
  cases op <;> unfold Abandons <;> infer_instance

theorem step_activeSlot_of_abandons {b : BootControlBlock} {op : Op} (h : Abandons b op) :
    (step b op).activeSlot = b.pendingSlot.inactivePair := by
  cases op with
  | beginBoot =>
    rw [step, beginBoot_activeSlot]
    exact if_pos h
  | rollbackToStable r => exact rollbackToStable_activeSlot b r
  | stageUpdate t | publishStage st | markBootSuccess | recordPanic st => exact h.elim

/-- A block together with the slot that last completed `markBootSuccess`. -/
structure History where
  block : BootControlBlock
  lastGood : SlotId

def History.start (b : BootControlBlock) : History := ⟨b, b.activeSlot⟩

def History.step (h : History) (op : Op) : History where
  block := Boot.step h.block op
  lastGood := match op with
    | .markBootSuccess => (Boot.step h.block op).activeSlot
    | _ => h.lastGood

def RestoresLastGood (h : History) (op : Op) : Prop :=
  Abandons h.block op → (step h.block op).activeSlot = h.lastGood

/-- A slot is given up only with `systemA` pending over a good `systemB`, or with
`systemA` good and anything but `systemA` pending. -/
def AbandonsOverPartner (h : History) (op : Op) : Prop :=
  Abandons h.block op →
    (h.block.pendingSlot = .systemA → h.lastGood = .systemB) ∧
      (h.block.pendingSlot ≠ .systemA → h.lastGood = .systemA)

instance (h : History) (op : Op) : Decidable (RestoresLastGood h op) :=
  inferInstanceAs (Decidable (_ → _))

instance (h : History) (op : Op) : Decidable (AbandonsOverPartner h op) :=
  inferInstanceAs (Decidable (_ → _ ∧ _))

theorem restoresLastGood_iff (h : History) (op : Op) :
    RestoresLastGood h op ↔ AbandonsOverPartner h op := by
  constructor
  · intro hr ha
    have hg := hr ha
    rw [step_activeSlot_of_abandons ha] at hg
    exact (SlotId.inactivePair_eq_iff _ _).mp hg
  · intro hp ha
    rw [step_activeSlot_of_abandons ha]
    exact (SlotId.inactivePair_eq_iff _ _).mpr (hp ha)

/-- The update policy the rollback rule relies on: an update is staged into the partner
of the last good slot, and a slot is given up only with an update pending or with
`systemA` good. -/
def StagesPartner (h : History) : Op → Prop
  | .stageUpdate t => t = .none ∨ t.inactivePair = h.lastGood
  | op => Abandons h.block op → h.block.pendingSlot ≠ .none ∨ h.lastGood = .systemA

def PartnerPending (h : History) : Prop :=
  h.block.pendingSlot = .none ∨ h.block.pendingSlot.inactivePair = h.lastGood

theorem partnerPending_step (h : History) (op : Op) (hi : PartnerPending h)
    (hs : StagesPartner h op) : PartnerPending (h.step op) := by
  cases op with
  | beginBoot =>
    change h.block.beginBoot.pendingSlot = .none ∨
      h.block.beginBoot.pendingSlot.inactivePair = h.lastGood
    rw [beginBoot_pendingSlot]
    split_ifs
    · exact .inl rfl
    · exact hi
  | stageUpdate t =>
    change (h.block.stageUpdate t).pendingSlot = .none ∨
      (h.block.stageUpdate t).pendingSlot.inactivePair = h.lastGood
    rw [stageUpdate_pendingSlot]
    exact hs
  | publishStage st =>
    change (h.block.publishStage st).pendingSlot = .none ∨
      (h.block.publishStage st).pendingSlot.inactivePair = h.lastGood
    rw [publishStage_pendingSlot]
    exact hi
  | markBootSuccess => exact .inl (markBootSuccess_pendingSlot _)
  | recordPanic st => exact hi
  | rollbackToStable r => exact .inl (rollbackToStable_pendingSlot _ r)

theorem restoresLastGood_of_stagesPartner (h : History) (op : Op) (hi : PartnerPending h)
    (hs : StagesPartner h op) : RestoresLastGood h op := by
  intro ha
  have hp : h.block.pendingSlot ≠ .none ∨ h.lastGood = .systemA := by
    cases op with
    | stageUpdate t => exact ha.elim
    | beginBoot | rollbackToStable r => exact hs ha
    | publishStage st | markBootSuccess | recordPanic st => exact ha.elim
  rw [step_activeSlot_of_abandons ha]
  rcases hi with hn | hi
  · rcases hp with hp | hp
    · exact absurd hn hp
    · rw [hn, hp]; rfl
  · exact hi

/-- In every run, each abandoned slot is replaced by the last good one exactly when each
is given up over its partner; the staging policy is enough for that. -/
theorem rollback_restores_lastGood (b : BootControlBlock) (ops : List Op) :
    (Run.Along History.step RestoresLastGood (History.start b) ops ↔
      Run.Along History.step AbandonsOverPartner (History.start b) ops) ∧
    (PartnerPending (History.start b) →
      Run.Along History.step StagesPartner (History.start b) ops →
      Run.Along History.step RestoresLastGood (History.start b) ops) := by
  refine ⟨Run.along_congr (I := fun _ => True) (fun _ _ h _ => h)
    (fun h op _ => restoresLastGood_iff h op) trivial ops, ?_⟩
  intro hi hs
  exact Run.Along.safety partnerPending_step restoresLastGood_of_stagesPartner hi hs

/-- One update cycle to `systemB` that succeeds, then an explicit rollback: the last good
slot is `systemB`, but nothing is pending any more and `systemA` is made active. -/
theorem rollback_after_update_boots_systemA :
    default.validate = true ∧
    ¬ Run.Along History.step RestoresLastGood (History.start default)
      [.stageUpdate .systemB, .beginBoot, .markBootSuccess,
        .rollbackToStable .recoveryRequested] := by
  constructor
  · decide +kernel
  · decide

end EchOS.Boot
