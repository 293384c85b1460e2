import EchOS.Boot.ControlBlock

/-! What each boot control operation does to the active and the pending slot. -/
namespace EchOS.Boot

@[simp] theorem SlotId.ofByte_toByte (s : SlotId) : SlotId.ofByte s.toByte = s := by
  cases s <;> rfl

theorem SlotId.inactivePair_eq_iff (s g : SlotId) :
    s.inactivePair = g ↔ (s = .systemA → g = .systemB) ∧ (s ≠ .systemA → g = .systemA) := by
  cases s <;> cases g <;> decide

namespace BootControlBlock

section

variable (b : BootControlBlock) (r : RollbackReason) (t : SlotId) (st : BootStage)
include b

@[simp] theorem withCrc_activeSlot :
    b.withCrc.activeSlot = b.activeSlot := rfl

@[simp] theorem withCrc_pendingSlot :
    b.withCrc.pendingSlot = b.pendingSlot := rfl

@[simp] theorem rollbackToStable_activeSlot :
    (b.rollbackToStable r).activeSlot = b.pendingSlot.inactivePair :=
  SlotId.ofByte_toByte _

@[simp] theorem rollbackToStable_pendingSlot :
    (b.rollbackToStable r).pendingSlot = .none := rfl

@[simp] theorem selectSlot_pendingSlot : b.selectSlot.pendingSlot = b.pendingSlot := by
  unfold selectSlot
  split_ifs <;> rfl

@[simp] theorem selectSlot_attemptsRemaining :
    b.selectSlot.attemptsRemaining = b.attemptsRemaining := by
  unfold selectSlot
  split_ifs <;> rfl

theorem useAttempt_activeSlot :
    b.useAttempt.activeSlot =
      if b.attemptsRemaining = 0 then b.pendingSlot.inactivePair else b.activeSlot := by
  unfold useAttempt
  split_ifs
  · exact rollbackToStable_activeSlot _ _
  · rfl

theorem useAttempt_pendingSlot :
    b.useAttempt.pendingSlot = if b.attemptsRemaining = 0 then .none else b.pendingSlot := by
  unfold useAttempt
  split_ifs <;> rfl

theorem beginBoot_activeSlot :
    b.beginBoot.activeSlot =
      if b.attemptsRemaining = 0 then b.pendingSlot.inactivePair else b.selectSlot.activeSlot := by
  have hp := b.selectSlot_pendingSlot
  have ha := b.selectSlot_attemptsRemaining
  rw [beginBoot, withCrc_activeSlot, useAttempt_activeSlot]
  simp only [ha]
  exact ite_congr rfl (fun _ => congrArg _ hp) (fun _ => rfl)

theorem beginBoot_pendingSlot :
    b.beginBoot.pendingSlot = if b.attemptsRemaining = 0 then .none else b.pendingSlot := by
  have hp := b.selectSlot_pendingSlot
  have ha := b.selectSlot_attemptsRemaining
  rw [beginBoot, withCrc_pendingSlot, useAttempt_pendingSlot]
  simp only [ha]
  exact ite_congr rfl (fun _ => rfl) (fun _ => hp)

@[simp] theorem stageUpdate_activeSlot : (b.stageUpdate t).activeSlot = b.activeSlot := by
  cases t <;> rfl

@[simp] theorem stageUpdate_pendingSlot : (b.stageUpdate t).pendingSlot = t := by
  cases t <;> rfl

@[simp] theorem publishStage_activeSlot : (b.publishStage st).activeSlot = b.activeSlot := by
  unfold publishStage; split <;> rfl

@[simp] theorem publishStage_pendingSlot : (b.publishStage st).pendingSlot = b.pendingSlot := by
  unfold publishStage; split <;> rfl

theorem markBootSuccess_activeSlot :
    b.markBootSuccess.activeSlot =
      if b.pendingSlot = .none then b.activeSlot else b.pendingSlot := by
  rw [markBootSuccess, withCrc_activeSlot, publishStage_activeSlot]
  unfold promotePending
  split_ifs with h <;> first | contradiction | rfl

@[simp] theorem markBootSuccess_pendingSlot : b.markBootSuccess.pendingSlot = .none := by
  rw [markBootSuccess, withCrc_pendingSlot, publishStage_pendingSlot]
  unfold promotePending
  split_ifs with h
  · rfl
  · exact not_not.mp h

end

end BootControlBlock

end EchOS.Boot
