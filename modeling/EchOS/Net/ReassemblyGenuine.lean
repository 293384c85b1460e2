import EchOS.Net.ReassemblyOrder

/-! Where the bytes of a reassembled payload come from. Blocks of eight bytes are marked, so a
fragment that ends inside of one also stands for bytes that it does not have. -/

namespace EchOS.Net

open List FragmentTable

namespace FragmentCall

def stop (call : FragmentCall) : ℕ := call.header.offsetBytes + call.payload.length

def Covers (call : FragmentCall) (k : ℕ) : Prop := call.header.offsetBytes ≤ k ∧ k < call.stop

instance (call : FragmentCall) (k : ℕ) : Decidable (call.Covers k) :=
  inferInstanceAs (Decidable (_ ∧ _))

def Supplies (call : FragmentCall) (k : ℕ) (byte : BitVec 8) : Prop :=
  call.Covers k ∧ call.payload.getD (k - call.header.offsetBytes) 0 = byte

end FragmentCall

/-- The table, and for each key the fragments copied into its entry since that was created. -/
structure Reassembler where
  table : FragmentTable
  log : FragmentKey → List FragmentCall

namespace Reassembler

def start : Reassembler := ⟨∅, fun _ => []⟩

/-- The fragments of the key of a call, with its own if that fits into the buffer. -/
def taken (r : Reassembler) (call : FragmentCall) : List FragmentCall :=
  if call.stop > bufferLen then r.log call.header.fragmentKey
  else call :: r.log call.header.fragmentKey

def step (r : Reassembler) (call : FragmentCall) : Reassembler where
  table := r.table.step call
  log := Function.update r.log call.header.fragmentKey
    (if (reassembleFragment r.table call).1 = none then r.taken call else [])

/-- Every byte of a payload that the call returns was supplied by a fragment of its key. -/
def Genuine (r : Reassembler) (call : FragmentCall) : Prop :=
  ∀ payload, (reassembleFragment r.table call).1 = some payload →
    ∀ k < payload.length, ∃ f ∈ r.taken call, f.Supplies k (payload.getD k 0)

/-- The entry of a call, with its fragment taken in. -/
def entryWith (r : Reassembler) (call : FragmentCall) : FragmentEntry :=
  (r.table.entry call.header.fragmentKey call.now).receive call.header.offsetBytes call.header.mf
    call.payload

/-- If the fragment fits and every block has come with it, what a fragment leaves out of its last
block some fragment has. -/
def TailsCovered (r : Reassembler) (call : FragmentCall) : Prop :=
  call.stop ≤ bufferLen → ∀ total ∈ (r.entryWith call).totalLen,
    (∀ i < (total + 7) / 8, (r.entryWith call).receivedMask i = true) →
    ∀ f ∈ r.taken call, ∀ k < total, f.stop ≤ k → k < 8 * ((f.stop + 7) / 8) →
      ∃ g ∈ r.taken call, g.Covers k

/-- The first byte of a marked block has come, and what has come is in the buffer. -/
structure Recorded (entry : FragmentEntry) (log : List FragmentCall) : Prop where
  marked : ∀ i, entry.receivedMask i = true → ∃ f ∈ log, f.Covers (8 * i)
  copied : ∀ f ∈ log, ∀ k, f.Covers k → ∃ g ∈ log, g.Supplies k (entry.buffer k)

def Sound (r : Reassembler) : Prop := ∀ key now, Recorded (r.table.entry key now) (r.log key)

theorem recorded_new (now : UInt64) : Recorded (.new now) [] := ⟨nofun, nofun⟩

theorem Recorded.receive {entry : FragmentEntry} {log : List FragmentCall}
    (h : Recorded entry log) (call : FragmentCall) : Recorded
      (entry.receive call.header.offsetBytes call.header.mf call.payload) (call :: log) where
  marked i hi := by
    rcases Bool.or_eq_true_iff.mp hi with hnew | hold
    · have hblock := of_decide_eq_true hnew
      have hlt := Nat.lt_of_lt_of_le hblock.2 (Nat.min_le_left _ _)
      refine ⟨call, mem_cons_self, ?_⟩
      unfold FragmentCall.Covers FragmentCall.stop Ipv4Header.offsetBytes at *
      omega
    · obtain ⟨f, hf, hcovers⟩ := h.marked i hold
      exact ⟨f, mem_cons_of_mem _ hf, hcovers⟩
  copied f hf k hcovers := by
    show ∃ g ∈ call :: log, g.Supplies k (Disk.write _ _ _ k)
    by_cases hcall : call.Covers k
    · refine ⟨call, mem_cons_self, hcall, ?_⟩
      rw [Disk.write_inside hcall.1 hcall.2]
    · rcases mem_cons.mp hf with rfl | hf
      · exact absurd hcovers hcall
      · obtain ⟨g, hg, hsupplies⟩ := h.copied f hf k hcovers
        refine ⟨g, mem_cons_of_mem _ hg, ?_⟩
        rwa [Disk.write_outside (by unfold FragmentCall.Covers FragmentCall.stop at hcall; omega)]

variable {r : Reassembler} {call : FragmentCall}

theorem reassembleFragment_cases (h : r.Sound) (call : FragmentCall) :
    ∃ entry, Recorded entry (r.taken call) ∧
      (reassembleFragment r.table call =
          (none, AList.insert call.header.fragmentKey entry r.table) ∨
        ∃ payload, entry.assembled = some payload ∧ reassembleFragment r.table call =
          (some payload, AList.erase call.header.fragmentKey r.table)) := by
  unfold reassembleFragment taken FragmentCall.stop
  dsimp only
  split_ifs
  · exact ⟨_, h _ call.now, .inl rfl⟩
  · refine ⟨_, (h _ call.now).receive call, ?_⟩
    cases FragmentEntry.assembled _ with
    | none => exact .inl rfl
    | some payload => exact .inr ⟨payload, rfl, rfl⟩

theorem sound_step (h : r.Sound) (call : FragmentCall) : (r.step call).Sound := by
  intro key now
  unfold step
  dsimp only
  by_cases hkey : call.header.fragmentKey = key
  · subst hkey
    rw [Function.update_self, FragmentTable.step]
    obtain ⟨entry, hentry, hcall | ⟨payload, -, hcall⟩⟩ := reassembleFragment_cases h call
    · rwa [hcall, if_pos rfl, entry_insert, if_pos rfl]
    · rw [hcall, if_neg nofun, FragmentTable.entry, Table.lookup_erase_eq, if_pos rfl]
      exact recorded_new now
  · rw [entry_step_other hkey, Function.update_of_ne (Ne.symm hkey)]
    exact h key now

theorem genuine_iff (h : r.Sound) (call : FragmentCall) : r.Genuine call ↔ r.TailsCovered call := by
  by_cases hlong : call.stop > bufferLen
  · have hnone : (reassembleFragment r.table call).1 = none :=
      congrArg Prod.fst (if_pos hlong)
    refine iff_of_true (fun payload hsome => ?_) fun hfits => absurd hlong (Nat.not_lt.mpr hfits)
    cases hnone.symm.trans hsome
  have hentry : Recorded (r.entryWith call) (r.taken call) := by
    rw [taken, if_neg hlong]
    exact (h _ call.now).receive call
  have hcall : (reassembleFragment r.table call).1 = (r.entryWith call).assembled := by
    refine (congrArg Prod.fst (if_neg hlong)).trans ?_
    unfold entryWith
    split
    · next hsome => exact hsome.symm
    · next hnone => exact hnone.symm
  unfold Genuine TailsCovered
  simp only [hcall, FragmentEntry.assembled, Option.bind_eq_bind, Option.bind_eq_some_iff,
    Option.ite_none_right_eq_some, all_eq_true, mem_range, Option.some.injEq]
  constructor
  · rintro hgenuine - total htotal hmask f - k hk - -
    obtain ⟨g, hg, hcovers, -⟩ :=
      hgenuine _ ⟨total, htotal, hmask, rfl⟩ k (by rwa [Disk.length_read])
    exact ⟨g, hg, hcovers⟩
  · rintro htails - ⟨total, htotal, hmask, rfl⟩ k hk
    rw [Disk.length_read] at hk
    obtain ⟨g, hg, hcovers⟩ : ∃ g ∈ r.taken call, g.Covers k := by
      obtain ⟨f, hf, hfirst⟩ := hentry.marked (k / 8) (hmask _ (by omega))
      have hlt := hfirst.2
      by_cases hstop : k < f.stop
      · exact ⟨f, hf, Nat.le_trans hfirst.1 (Nat.mul_div_le k 8), hstop⟩
      · exact htails (Nat.not_lt.mp hlong) total htotal hmask f hf k hk (by omega) (by omega)
    rw [Disk.getD_read hk, Nat.zero_add]
    exact hentry.copied g hg k hcovers

/-- A payload has only bytes that were supplied exactly if the fragments that end inside of a block
are made up for. -/
theorem genuine_along_iff (calls : List FragmentCall) :
    Run.Along step Genuine start calls ↔ Run.Along step TailsCovered start calls :=
  Run.along_congr (s := start) (I := Sound) (fun _ call h _ => sound_step h call)
    (fun _ call h => genuine_iff h call) (fun _ => recorded_new) calls

/-- Four bytes, then all from the ninth on: four zeros come between them. -/
theorem gap_filled :
    ¬Run.Along step Genuine start [⟨0, fragmentHeader 7 0 true, [1, 2, 3, 4]⟩,
      ⟨0, fragmentHeader 7 1 false, [9]⟩] := by
  rintro ⟨-, h, -⟩
  obtain ⟨f, hf, hcovers, -⟩ := h [1, 2, 3, 4, 0, 0, 0, 0, 9] (by decide +kernel) 4 (by decide)
  revert f
  decide +kernel

end Reassembler

end EchOS.Net
