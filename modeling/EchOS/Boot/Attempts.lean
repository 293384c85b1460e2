import EchOS.Boot.Rollback

/-! The boot attempts of a staged slot: three boots of the slot, then its partner. Every operation
keeps the record valid and the boot counter from going back. -/
namespace EchOS.Boot

open BootControlBlock Run

section Validity

variable (b : BootControlBlock) (op : Op)

/-- No operation writes the header or lets the boot counter go back. -/
theorem step_header : (step b op).magic = b.magic ∧ (step b op).version = b.version ∧
    (step b op).headerSize = b.headerSize ∧ b.bootEpoch ≤ (step b op).bootEpoch := by
  cases op with
  | beginBoot =>
    simp only [step, beginBoot, useAttempt, selectSlot]
    split_ifs <;> exact ⟨rfl, rfl, rfl, le_satSucc64 _⟩
  | stageUpdate t => cases t <;> exact ⟨rfl, rfl, rfl, UInt64.le_refl _⟩
  | publishStage st =>
    simp only [step, publishStage]
    split_ifs <;> exact ⟨rfl, rfl, rfl, UInt64.le_refl _⟩
  | markBootSuccess =>
    simp only [step, markBootSuccess, publishStage, promotePending]
    split_ifs <;> exact ⟨rfl, rfl, rfl, UInt64.le_refl _⟩
  | recordPanic st | rollbackToStable r => exact ⟨rfl, rfl, rfl, UInt64.le_refl _⟩

theorem step_sealed : step b op = b ∨ ∃ c, step b op = withCrc c := by
  cases op with
  | publishStage st =>
    simp only [step, publishStage]
    split_ifs
    · exact .inr ⟨_, rfl⟩
    · exact .inl rfl
  | beginBoot | stageUpdate t | markBootSuccess | recordPanic st | rollbackToStable r =>
    exact .inr ⟨_, rfl⟩

theorem step_validate (h : b.validate) : (step b op).validate := by
  obtain ⟨hmagic, hversion, hsize, -⟩ := step_header b op
  rcases step_sealed b op with heq | ⟨c, heq⟩
  · rw [heq]
    exact h
  · rw [heq] at hmagic hversion hsize ⊢
    unfold validate at h
    split_ifs at h with hbad
    rw [← hmagic, ← hversion, ← hsize] at hbad
    exact (if_neg hbad).trans (beq_self_eq_true _)

end Validity

/-- Not a success, another staging or an explicit rollback. -/
def Op.awaits : Op → Bool
  | .beginBoot | .publishStage _ | .recordPanic _ => true
  | _ => false

variable {b : BootControlBlock}

theorem beginBoot_attemptsRemaining (h : b.attemptsRemaining ≠ 0) :
    b.beginBoot.attemptsRemaining.toNat + 1 = b.attemptsRemaining.toNat := by
  have hone : (1 : UInt8) ≤ b.attemptsRemaining := by
    exact Nat.pos_of_ne_zero fun hzero => h (UInt8.toNat_inj.mp hzero)
  simp only [beginBoot, useAttempt, selectSlot_attemptsRemaining, if_neg h]
  change (b.attemptsRemaining - 1).toNat + 1 = _
  rw [UInt8.toNat_sub_of_le _ _ hone]
  exact Nat.sub_add_cancel (UInt8.le_iff_toNat_le.mp hone)

/-- As long as attempts are left, every boot takes one and the slot stays pending. -/
theorem exec_awaits {ops : List Op} (hops : ∀ op ∈ ops, op.awaits)
    (hcount : ops.count .beginBoot ≤ b.attemptsRemaining.toNat) :
    (exec step b ops).pendingSlot = b.pendingSlot ∧
      (exec step b ops).attemptsRemaining.toNat + ops.count .beginBoot =
        b.attemptsRemaining.toNat := by
  induction ops generalizing b with
  | nil => exact ⟨rfl, rfl⟩
  | cons op ops ih =>
    obtain ⟨hop, hrest⟩ := List.forall_mem_cons.mp hops
    rw [exec_cons]
    cases op with
    | beginBoot =>
      rw [List.count_cons_self] at hcount ⊢
      have hleft : b.attemptsRemaining ≠ 0 := by
        intro hzero
        rw [hzero] at hcount
        exact absurd hcount (Nat.not_succ_le_zero _)
      have hstep := beginBoot_attemptsRemaining hleft
      obtain ⟨hpending, hattempts⟩ := ih (b := b.beginBoot) hrest (by omega)
      rw [beginBoot_pendingSlot, if_neg hleft] at hpending
      exact ⟨hpending, by rw [← hstep, ← hattempts]; rfl⟩
    | publishStage st =>
      have hsame : (b.publishStage st).attemptsRemaining = b.attemptsRemaining := by
        unfold publishStage
        split_ifs <;> rfl
      obtain ⟨hpending, hattempts⟩ := ih (b := b.publishStage st) hrest (by rwa [hsame])
      rw [hsame] at hattempts
      rw [publishStage_pendingSlot] at hpending
      exact ⟨hpending, hattempts⟩
    | recordPanic st =>
      exact ih (b := b.recordPanic st) hrest hcount
    | stageUpdate t | markBootSuccess | rollbackToStable r => cases hop

/-- After a slot is staged, with no success, other staging or explicit rollback since, the first
three boots make it active, and the fourth makes its partner active with nothing pending. -/
theorem staged_slot_has_three_attempts (b : BootControlBlock) (hb : b.validate)
    (history ops : List Op) (s : SlotId) (hs : s ≠ .none) (hops : ∀ op ∈ ops, op.awaits) :
    (∀ before after, ops = before ++ .beginBoot :: after →
      let booted := exec step b (history ++ .stageUpdate s :: (before ++ [.beginBoot]))
      (before.count .beginBoot < 3 → booted.activeSlot = s) ∧
        (before.count .beginBoot = 3 →
          booted.activeSlot = s.inactivePair ∧ booted.pendingSlot = .none)) ∧
    ∀ run more, (exec step b run).validate ∧
      (exec step b run).bootEpoch ≤ (exec step b (run ++ more)).bootEpoch := by
  constructor
  · intro before after hsplit
    obtain ⟨hbefore, -⟩ := List.forall_mem_append.mp (hsplit ▸ hops)
    rw [exec_append, exec_cons, exec_concat]
    generalize exec step b history = c
    have hpending : (step c (.stageUpdate s)).pendingSlot = s := stageUpdate_pendingSlot c s
    have hthree : (step c (.stageUpdate s)).attemptsRemaining.toNat = 3 := by cases s <;> rfl
    generalize step c (.stageUpdate s) = staged at hpending hthree
    constructor
    · intro hcount
      obtain ⟨hkept, hleft⟩ := exec_awaits (b := staged) hbefore (by omega)
      have hsome : (exec step staged before).attemptsRemaining ≠ 0 := by
        intro hzero
        rw [hzero] at hleft
        exact absurd hleft (by simp; omega)
      rw [hpending] at hkept
      change (exec step staged before).beginBoot.activeSlot = s
      rw [beginBoot_activeSlot, if_neg hsome, selectSlot, if_pos (hkept ▸ hs), hkept]
      exact SlotId.ofByte_toByte s
    · intro hcount
      obtain ⟨hkept, hleft⟩ := exec_awaits (b := staged) hbefore (by omega)
      have hzero : (exec step staged before).attemptsRemaining = 0 := by
        apply UInt8.toNat_inj.mp
        exact Nat.eq_zero_of_le_zero (by omega)
      change (exec step staged before).beginBoot.activeSlot = _ ∧
        (exec step staged before).beginBoot.pendingSlot = _
      rw [beginBoot_activeSlot, beginBoot_pendingSlot, if_pos hzero, if_pos hzero, hkept, hpending]
      exact ⟨rfl, rfl⟩
  · intro run more
    refine ⟨exec_invariant (fun c op => step_validate c op) hb run, ?_⟩
    rw [exec_append]
    generalize exec step b run = c
    induction more generalizing c with
    | nil => exact UInt64.le_refl _
    | cons op more ih => exact UInt64.le_trans (step_header c op).2.2.2 (ih _)

/-- A panic between the boots takes no attempt. -/
theorem staged_slot_has_three_attempts_systemB :
    let ops : List Op := [.beginBoot, .recordPanic .storageMounted, .beginBoot, .beginBoot]
    let booted := exec step .default (.stageUpdate .systemB :: (ops ++ [.beginBoot]))
    booted.activeSlot = .systemA ∧ booted.pendingSlot = .none :=
  ((staged_slot_has_three_attempts .default (by decide +kernel) [] _ .systemB (by decide)
    (by decide)).1 [.beginBoot, .recordPanic .storageMounted, .beginBoot, .beginBoot] [] rfl).2 rfl

end EchOS.Boot
