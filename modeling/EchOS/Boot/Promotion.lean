import Mathlib.Data.List.Induction
import EchOS.Boot.Rollback

/-! When a staged slot may be promoted. A slot is promoted when it becomes the active
slot with nothing pending; the block itself does not record whether it ever booted. -/
namespace EchOS.Boot

open BootControlBlock List Run

def Settled (b : BootControlBlock) (s : SlotId) : Prop :=
  b.activeSlot = s ∧ b.pendingSlot = .none

def Promotes (b : BootControlBlock) (op : Op) (s : SlotId) : Prop :=
  ¬ Settled b s ∧ Settled (step b op) s

instance (b : BootControlBlock) (s : SlotId) : Decidable (Settled b s) :=
  inferInstanceAs (Decidable (_ ∧ _))

instance (b : BootControlBlock) (op : Op) (s : SlotId) : Decidable (Promotes b op s) :=
  inferInstanceAs (Decidable (_ ∧ _))

/-- Every promotion of a staged slot follows a boot of that slot after the staging, and
a success reported by the boot that did the staging promotes nothing. -/
structure PromotedOnlyAfterBoot (b : BootControlBlock) (ops : List Op) : Prop where
  booted : ∀ (before between after : List Op) (s : SlotId) (op : Op), s ≠ .none →
    ops = before ++ .stageUpdate s :: (between ++ op :: after) →
    Promotes (exec step b (before ++ .stageUpdate s :: between)) op s →
    ∃ l r, between ++ [op] = l ++ .beginBoot :: r ∧
      (exec step b (before ++ .stageUpdate s :: (l ++ [.beginBoot]))).activeSlot = s
  otherBoot : ∀ (before between after : List Op) (s : SlotId), s ≠ .none →
    ops = before ++ .stageUpdate s :: (between ++ .markBootSuccess :: after) →
    .beginBoot ∉ between →
    ¬ Promotes (exec step b (before ++ .stageUpdate s :: between)) .markBootSuccess s

/-- A block together with the slots staged and not selected by a `beginBoot` since. -/
structure Staging where
  block : BootControlBlock
  unbooted : SlotId → Bool

def Staging.start (b : BootControlBlock) : Staging := ⟨b, fun _ => false⟩

def Staging.step (h : Staging) (op : Op) : Staging where
  block := Boot.step h.block op
  unbooted := match op with
    | .stageUpdate t => fun s => if s = t ∧ t ≠ .none then true else h.unbooted s
    | .beginBoot => fun s => if s = (Boot.step h.block op).activeSlot then false else h.unbooted s
    | _ => h.unbooted

def PromotesNoUnbooted (h : Staging) (op : Op) : Prop :=
  ∀ s, Promotes h.block op s → (h.step op).unbooted s = false

/-- The same condition read off the state before the operation. -/
def PromotesBooted (h : Staging) : Op → Prop
  | .markBootSuccess => h.block.pendingSlot ≠ .none → h.unbooted h.block.pendingSlot = false
  | .rollbackToStable _ =>
    ¬ Settled h.block h.block.pendingSlot.inactivePair →
      h.unbooted h.block.pendingSlot.inactivePair = false
  | .stageUpdate .none =>
    h.block.pendingSlot ≠ .none → h.unbooted h.block.activeSlot = false
  | _ => True

/-- An operation that leaves nothing pending can promote the active slot only. -/
theorem promotesNoUnbooted_iff_of_settles {h : Staging} {op : Op} {slot : SlotId}
    (ha : (step h.block op).activeSlot = slot) (hp : (step h.block op).pendingSlot = .none) :
    PromotesNoUnbooted h op ↔ (¬ Settled h.block slot → (h.step op).unbooted slot = false) := by
  constructor
  · exact fun hu hn => hu slot ⟨hn, ha, hp⟩
  · rintro hb s ⟨hn, hs, -⟩
    obtain rfl : slot = s := ha.symm.trans hs
    exact hb hn

theorem not_promotes_of_same_slots {b : BootControlBlock} {op : Op} {s : SlotId}
    (ha : (step b op).activeSlot = b.activeSlot) (hp : (step b op).pendingSlot = b.pendingSlot) :
    ¬ Promotes b op s := by
  rintro ⟨hn, h, h'⟩
  exact hn ⟨ha.symm.trans h, hp.symm.trans h'⟩

theorem promotesNoUnbooted_iff (h : Staging) (op : Op) :
    PromotesNoUnbooted h op ↔ PromotesBooted h op := by
  cases op with
  | beginBoot =>
    refine ⟨fun _ => trivial, fun _ s hs => ?_⟩
    exact if_pos hs.2.1.symm
  | publishStage st =>
    refine ⟨fun _ => trivial, fun _ s hs => (not_promotes_of_same_slots ?_ ?_ hs).elim⟩
    · exact publishStage_activeSlot _ st
    · exact publishStage_pendingSlot _ st
  | recordPanic st =>
    exact ⟨fun _ => trivial, fun _ s hs => (not_promotes_of_same_slots rfl rfl hs).elim⟩
  | markBootSuccess =>
    have hp : (step h.block .markBootSuccess).pendingSlot = .none :=
      markBootSuccess_pendingSlot _
    have ha : (step h.block .markBootSuccess).activeSlot = _ :=
      markBootSuccess_activeSlot _
    rw [promotesNoUnbooted_iff_of_settles ha hp]
    split_ifs with hne
    · exact iff_of_true (fun hn => (hn ⟨rfl, hne⟩).elim) fun hb => (hb hne).elim
    · exact ⟨fun hb _ => hb fun hs => hne hs.2, fun hb _ => hb hne⟩
  | rollbackToStable r =>
    have ha : (step h.block (.rollbackToStable r)).activeSlot = _ :=
      rollbackToStable_activeSlot _ r
    exact promotesNoUnbooted_iff_of_settles ha rfl
  | stageUpdate t =>
    have ha : (step h.block (.stageUpdate t)).activeSlot = h.block.activeSlot :=
      stageUpdate_activeSlot _ t
    have hp : (step h.block (.stageUpdate t)).pendingSlot = t :=
      stageUpdate_pendingSlot _ t
    by_cases ht : t = .none
    · subst t
      have hsame : (h.step (.stageUpdate .none)).unbooted = h.unbooted := by simp [Staging.step]
      rw [promotesNoUnbooted_iff_of_settles ha hp, hsame]
      exact ⟨fun hb hne => hb fun hs => hne hs.2, fun hb hn => hb fun hne => hn ⟨rfl, hne⟩⟩
    · have htriv : PromotesBooted h (.stageUpdate t) := by
        cases t <;> trivial
      exact ⟨fun _ => htriv, fun _ s hs => (ht (hp.symm.trans hs.2.2)).elim⟩

theorem staging_exec_block (b : BootControlBlock) (ops : List Op) :
    (exec Staging.step (Staging.start b) ops).block = exec step b ops := by
  induction ops using reverseRecOn with
  | nil => rfl
  | append_singleton ops a ih =>
    rw [exec_concat, exec_concat, ← ih]
    rfl

/-- The history behind the ghost set: the slot was staged and no later boot selected it. -/
def StagedUnbooted (b : BootControlBlock) (ops : List Op) (s : SlotId) : Prop :=
  ∃ before between, ops = before ++ .stageUpdate s :: between ∧ s ≠ .none ∧
    ∀ l r, between = l ++ .beginBoot :: r →
      (exec step b (before ++ .stageUpdate s :: (l ++ [.beginBoot]))).activeSlot ≠ s

section

variable (b : BootControlBlock) (ops : List Op)
include b ops

/-- Appending an operation keeps the history unless it stages or boots the slot. -/
theorem stagedUnbooted_concat_iff (a : Op) (s : SlotId) (hst : a ≠ .stageUpdate s) :
    StagedUnbooted b (ops ++ [a]) s ↔ StagedUnbooted b ops s ∧
      (a = .beginBoot → (step (exec step b ops) a).activeSlot ≠ s) := by
  constructor
  · rintro ⟨before, between, heq, hs, hno⟩
    rcases between.eq_nil_or_concat with rfl | ⟨between, x, rfl⟩
    · have hlast := congrArg getLast? heq
      simp at hlast
      exact (hst hlast).elim
    · rw [concat_eq_append, ← cons_append, ← append_assoc] at heq
      obtain ⟨rfl, hx⟩ := append_inj' heq rfl
      obtain rfl : a = x := by simpa using hx
      refine ⟨⟨before, between, rfl, hs, fun l r hl => hno l (r ++ [a]) (by simp [hl])⟩, ?_⟩
      rintro rfl
      have hsel := hno between [] (by simp)
      rw [← cons_append, ← append_assoc, exec_concat] at hsel
      exact hsel
  · rintro ⟨⟨before, between, rfl, hs, hno⟩, hsel⟩
    refine ⟨before, between ++ [a], by simp, hs, ?_⟩
    intro l r hl
    rcases r.eq_nil_or_concat with rfl | ⟨r, x, rfl⟩
    · obtain ⟨rfl, hx⟩ := append_inj' hl rfl
      obtain rfl : a = .beginBoot := by simpa using hx
      rw [← cons_append, ← append_assoc, exec_concat]
      exact hsel rfl
    · rw [concat_eq_append, ← cons_append, ← append_assoc] at hl
      obtain ⟨rfl, -⟩ := append_inj' hl rfl
      exact hno l r rfl

theorem unbooted_iff (s : SlotId) :
    (exec Staging.step (Staging.start b) ops).unbooted s = true ↔
      StagedUnbooted b ops s := by
  induction ops using reverseRecOn with
  | nil => simp [Staging.start, StagedUnbooted]
  | append_singleton ops a ih =>
    rw [exec_concat]
    by_cases hst : a = .stageUpdate s
    · subst a
      by_cases hs : s = .none
      · subst s
        refine ⟨fun hu => ?_, fun ⟨_, _, _, hs, _⟩ => (hs rfl).elim⟩
        have hu' : (exec Staging.step (Staging.start b) ops).unbooted .none = true := by
          simpa [Staging.step] using hu
        obtain ⟨_, _, _, hs, _⟩ := ih.mp hu'
        exact (hs rfl).elim
      · refine iff_of_true ?_ ⟨ops, [], rfl, hs, fun l r hl => ?_⟩
        · simp [Staging.step, hs]
        · simp at hl
    · rw [stagedUnbooted_concat_iff b ops a s hst, ← ih, ← staging_exec_block]
      cases a with
      | beginBoot =>
        by_cases hsel : s = (step (exec Staging.step (Staging.start b) ops).block
            .beginBoot).activeSlot
        · simp [Staging.step, ← hsel]
        · simp [Staging.step, hsel, Ne.symm hsel]
      | stageUpdate t =>
        have hne : s ≠ t := fun h => hst (h ▸ rfl)
        simp [Staging.step, hne]
      | publishStage st | markBootSuccess | recordPanic st | rollbackToStable r =>
        simp [Staging.step]

theorem unbooted_step_eq_false_iff (op : Op) (s : SlotId) :
    ((exec Staging.step (Staging.start b) ops).step op).unbooted s = false ↔
      ¬ StagedUnbooted b (ops ++ [op]) s := by
  rw [← unbooted_iff, exec_concat, Bool.not_eq_true]

theorem promotedOnlyAfterBoot_iff :
    PromotedOnlyAfterBoot b ops ↔
      Along Staging.step PromotesNoUnbooted (Staging.start b) ops := by
  rw [along_iff_split]
  constructor
  · rintro h l op r rfl s hs
    rw [staging_exec_block] at hs
    rw [unbooted_step_eq_false_iff]
    rintro ⟨before, between, heq, hne, hno⟩
    rcases between.eq_nil_or_concat with rfl | ⟨between, x, rfl⟩
    · -- The promoting operation is the staging itself, which leaves its slot pending.
      obtain ⟨rfl, hx⟩ := append_inj' heq rfl
      obtain rfl : op = .stageUpdate s := by simpa using hx
      exact hne ((stageUpdate_pendingSlot _ s).symm.trans hs.2.2)
    · rw [concat_eq_append, ← cons_append, ← append_assoc] at heq
      obtain ⟨rfl, hx⟩ := append_inj' heq rfl
      obtain rfl : op = x := by simpa using hx
      obtain ⟨l', r', hl', hsel⟩ := h.booted before between r s op hne (by simp) hs
      exact hno l' r' (by simpa using hl') hsel
  · intro h
    have booted : ∀ (before between after : List Op) (s : SlotId) (op : Op), s ≠ .none →
        ops = before ++ .stageUpdate s :: (between ++ op :: after) →
        Promotes (exec step b (before ++ .stageUpdate s :: between)) op s →
        ∃ l r, between ++ [op] = l ++ .beginBoot :: r ∧
          (exec step b (before ++ .stageUpdate s :: (l ++ [.beginBoot]))).activeSlot = s := by
      intro before between after s op hne heq hs
      have hu := h (before ++ .stageUpdate s :: between) op after (by simp [heq]) s
        (by rw [staging_exec_block]; exact hs)
      rw [unbooted_step_eq_false_iff] at hu
      by_contra hno
      refine hu ⟨before, between ++ [op], by simp, hne, fun l r hl hsel => hno ⟨l, r, hl, hsel⟩⟩
    refine ⟨booted, ?_⟩
    intro before between after s hne heq hnb hs
    obtain ⟨l, r, hl, -⟩ := booted before between after s _ hne heq hs
    have hm : Op.beginBoot ∈ between ++ [.markBootSuccess] := by rw [hl]; simp
    simp [hnb] at hm

end

/-- In every run, staged slots are promoted only after a boot of theirs exactly when each
success finds its pending slot booted, each rollback falls back to a slot that is not
staged and unbooted, and no pending update is withdrawn over such an active slot. -/
theorem staged_promoted_only_after_boot (b : BootControlBlock) (ops : List Op) :
    PromotedOnlyAfterBoot b ops ↔
      Along Staging.step PromotesBooted (Staging.start b) ops := by
  rw [promotedOnlyAfterBoot_iff]
  exact along_congr (I := fun _ => True) (fun _ _ h _ => h)
    (fun h op _ => promotesNoUnbooted_iff h op) trivial _

/-- Staging `systemB` and reporting success in the same boot promotes it unbooted. -/
theorem success_of_staging_boot_promotes :
    default.validate = true ∧
    ¬ PromotedOnlyAfterBoot default
      [.beginBoot, .stageUpdate .systemB, .markBootSuccess] := by
  constructor
  · decide +kernel
  · intro h
    refine h.otherBoot [.beginBoot] [] [] .systemB (by decide) rfl (by simp) ?_
    decide

end EchOS.Boot
