import EchOS.Net.Reassembly

/-! Fragments of one payload may arrive in any order, repeatedly and between those of other keys:
the payload is returned with the last one that was missing. -/

namespace EchOS.Net

open List FragmentTable

namespace Cut

variable {payload : List (BitVec 8)} (cut : Cut payload)

/-- The entry holds exactly the fragments in `got`. -/
structure Holds (got : ℕ → Prop) (entry : FragmentEntry) : Prop where
  length : ∀ n, entry.totalLen = some n ↔ got (cut.count - 1) ∧ n = payload.length
  mask : ∀ b, entry.receivedMask b ↔
    ∃ i < cut.count, got i ∧ cut.bound i / 8 ≤ b ∧ b < (cut.bound (i + 1) + 7) / 8
  bytes : ∀ i < cut.count, got i → ∀ k, cut.bound i ≤ k → k < cut.bound (i + 1) →
    entry.buffer k = payload.getD k 0

variable {cut} {got : ℕ → Prop} {entry : FragmentEntry}

variable {i : ℕ} {call : FragmentCall} {key : FragmentKey} {calls : List FragmentCall}

theorem IsFragment.index_unique {j : ℕ} (hi : cut.IsFragment key i call)
    (hj : cut.IsFragment key j call) : i = j := by
  have hsame : cut.bound i = cut.bound j := hi.offset.symm.trans hj.offset
  rcases Nat.lt_trichotomy i j with hlt | heq | hlt
  · have := cut.bound_lt hlt (Nat.le_of_lt hj.lt)
    omega
  · exact heq
  · have := cut.bound_lt hlt (Nat.le_of_lt hi.lt)
    omega

theorem delivered_cons :
    cut.Delivered key (call :: calls) i ↔
      cut.IsFragment key i call ∨ cut.Delivered key calls i := by
  simp [Delivered]

theorem delivered_concat :
    cut.Delivered key (calls ++ [call]) i ↔
      cut.Delivered key calls i ∨ cut.IsFragment key i call := by
  simp [Delivered, or_and_right, exists_or]

theorem holds_new (now : UInt64) : cut.Holds (fun _ => False) (.new now) where
  length _ := ⟨fun h => (nomatch h), fun h => h.1.elim⟩
  mask _ := ⟨fun h => (nomatch h), fun ⟨_, _, h, _⟩ => h.elim⟩
  bytes _ _ h := h.elim

section

variable (h : cut.Holds got entry)
include h

theorem Holds.congr {got' : ℕ → Prop} (hsame : ∀ i, got i ↔ got' i) : cut.Holds got' entry := by
  have heq : got = got' := funext fun i => propext (hsame i)
  exact heq ▸ h

theorem Holds.receive (hfits : payload.length ≤ bufferLen) (hi : i < cut.count) :
    cut.Holds (fun j => j = i ∨ got j)
      (entry.receive (cut.bound i) (decide (i + 1 < cut.count)) (cut.data i)) where
  length n := by
    have hend := cut.end_data hi
    show (if decide (i + 1 < cut.count) then entry.totalLen
      else some ((cut.bound i + (cut.data i).length) % 2 ^ 16)) = some n ↔ _
    rw [hend]
    by_cases hmore : i + 1 < cut.count
    · have hne : cut.count - 1 ≠ i := by omega
      rw [decide_eq_true hmore, if_pos rfl, h.length]
      simp [hne]
    · have hlast : cut.count - 1 = i := by omega
      have hbound : cut.bound (i + 1) = payload.length := by
        rw [← cut.bound_count]
        congr 1
        omega
      have hmod : payload.length % 2 ^ 16 = payload.length := by
        unfold bufferLen at hfits
        omega
      rw [decide_eq_false hmore, hbound, hmod]
      simp [hlast, eq_comm]
  mask b := by
    have hend := cut.end_data hi
    have hle := cut.bound_le_length (show i + 1 ≤ cut.count by omega)
    have hblocks : min ((cut.bound (i + 1) + 7) / 8) maskLen = (cut.bound (i + 1) + 7) / 8 := by
      unfold maskLen bufferLen at *
      omega
    show (decide (cut.bound i / 8 ≤ b ∧
      b < min ((cut.bound i + (cut.data i).length + 7) / 8) maskLen) || entry.receivedMask b) ↔ _
    rw [hend, hblocks, Bool.or_eq_true, decide_eq_true_iff, h.mask]
    constructor
    · rintro (hnew | ⟨j, hj, hgot, hblock⟩)
      · exact ⟨i, hi, .inl rfl, hnew⟩
      · exact ⟨j, hj, .inr hgot, hblock⟩
    · rintro ⟨j, hj, rfl | hgot, hblock⟩
      · exact .inl hblock
      · exact .inr ⟨j, hj, hgot, hblock⟩
  bytes j hj hgot k hlo hhi := by
    have hend := cut.end_data hi
    show Disk.write entry.buffer (cut.bound i) (cut.data i) k = _
    by_cases hin : cut.bound i ≤ k ∧ k < cut.bound (i + 1)
    · rw [Disk.write_inside hin.1 (by omega), cut.getD_data hi hin.1 hin.2]
    · have hother : got j := by
        rcases hgot with rfl | hgot
        · exact absurd ⟨hlo, hhi⟩ hin
        · exact hgot
      rw [Disk.write_outside (by omega)]
      exact h.bytes j hj hother k hlo hhi

theorem Holds.buffer_eq (hall : ∀ i < cut.count, got i) :
    Disk.read entry.buffer 0 payload.length = payload := by
  apply ext_getElem
  · rw [Disk.length_read]
  · intro k hk hk'
    obtain ⟨i, hi, hlo, hhi⟩ := cut.exists_fragment hk'
    have hbyte := h.bytes i hi (hall i hi) k hlo hhi
    simp only [Disk.read, getElem_map, getElem_range, Nat.zero_add]
    rw [hbyte, getD_eq_getElem _ _ hk']

theorem Holds.assembled_of_all (hall : ∀ i < cut.count, got i) :
    entry.assembled = some payload := by
  have hcount := cut.two_le
  have hlength : entry.totalLen = some payload.length :=
    (h.length _).mpr ⟨hall _ (by omega), rfl⟩
  have hmask : (List.range ((payload.length + 7) / 8)).all entry.receivedMask := by
    rw [all_eq_true]
    intro b hb
    have hlt := mem_range.mp hb
    obtain ⟨i, hi, hlo, hhi⟩ := cut.exists_fragment (show 8 * b < payload.length by omega)
    rw [h.mask]
    exact ⟨i, hi, hall i hi, by omega, by omega⟩
  unfold FragmentEntry.assembled
  rw [hlength]
  show (if _ then _ else _) = _
  rw [if_pos hmask, h.buffer_eq hall]

theorem Holds.assembled_of_missing {j : ℕ} (hj : j < cut.count) (hmissing : ¬got j) :
    entry.assembled = none := by
  unfold FragmentEntry.assembled
  cases htotal : entry.totalLen with
  | none => rfl
  | some n =>
    obtain ⟨_, rfl⟩ := (h.length n).mp htotal
    -- The first block of the missing fragment is marked by no other.
    have hlt := cut.rising j hj
    have hle := cut.bound_le_length (show j + 1 ≤ cut.count by omega)
    have hblock : ¬entry.receivedMask (cut.bound j / 8) := by
      intro hmarked
      obtain ⟨i, hi, hgot, hlo, hhi⟩ := (h.mask _).mp hmarked
      have hsame : i = j := cut.block_unique hi hj hlo hhi (Nat.le_refl _) (by omega)
      exact hmissing (hsame ▸ hgot)
    show (if _ then _ else _) = _
    rw [if_neg]
    intro hall
    have hrange : cut.bound j / 8 ∈ List.range ((payload.length + 7) / 8) := by
      rw [mem_range]
      omega
    exact hblock (all_eq_true.mp hall _ hrange)

end

end Cut

section Run

variable {payload : List (BitVec 8)} {cut : Cut payload} {key : FragmentKey}
  {table : FragmentTable} {got : ℕ → Prop}

/-- What the table has under the key is the fragments in `got`. -/
def FragmentTable.Collects (table : FragmentTable) (key : FragmentKey) (cut : Cut payload)
    (got : ℕ → Prop) : Prop :=
  ∀ now, cut.Holds got (table.entry key now)

theorem entry_insert (table : FragmentTable) (key key' : FragmentKey) (e : FragmentEntry)
    (now : UInt64) : entry (AList.insert key e table) key' now =
      if key' = key then e else table.entry key' now := by
  unfold entry
  rw [Table.lookup_insert_eq]
  split_ifs
  · rw [Option.getD_some]
  · rfl

variable {call : FragmentCall} {i : ℕ}

theorem entry_step_other (hkey : call.header.fragmentKey ≠ key) (now : UInt64) :
    (table.step call).entry key now = table.entry key now := by
  unfold step reassembleFragment
  dsimp only
  split_ifs
  · rw [entry_insert, if_neg hkey.symm]
  · split
    · unfold entry
      rw [Table.lookup_erase_eq, if_neg hkey.symm]
    · rw [entry_insert, if_neg hkey.symm]

theorem FragmentTable.Collects.receive (h : table.Collects key cut got)
    (hfits : payload.length ≤ bufferLen) (hfrag : cut.IsFragment key i call) :
    cut.Holds (fun j => j = i ∨ got j)
      ((table.entry call.header.fragmentKey call.now).receive call.header.offsetBytes
        call.header.mf call.payload) := by
  rw [hfrag.key, hfrag.offset, hfrag.mf, hfrag.payload]
  exact (h call.now).receive hfits hfrag.lt

theorem not_past_buffer (hfits : payload.length ≤ bufferLen) (hfrag : cut.IsFragment key i call) :
    ¬call.header.offsetBytes + call.payload.length > bufferLen := by
  have hend := cut.end_data hfrag.lt
  have hle := cut.bound_le_length (show i + 1 ≤ cut.count from hfrag.lt)
  rw [hfrag.offset, hfrag.payload]
  omega

section

variable (h : table.Collects key cut got) (hfits : payload.length ≤ bufferLen)
include h hfits

theorem FragmentTable.Collects.step_missing {j : ℕ} (hfrag : cut.IsFragment key i call)
    (hj : j < cut.count) (hne : j ≠ i) (hmissing : ¬got j) :
    (reassembleFragment table call).1 = none ∧
      (table.step call).Collects key cut fun j => j = i ∨ got j := by
  have hreceive := h.receive hfits hfrag
  have hnone := hreceive.assembled_of_missing hj (by simp [hne, hmissing])
  have hresult : reassembleFragment table call = (none, AList.insert call.header.fragmentKey
      ((table.entry call.header.fragmentKey call.now).receive call.header.offsetBytes
        call.header.mf call.payload) table) := by
    unfold reassembleFragment
    dsimp only
    rw [if_neg (not_past_buffer hfits hfrag), hnone]
  unfold step
  rw [hresult]
  refine ⟨rfl, fun now => ?_⟩
  rw [entry_insert, if_pos hfrag.key.symm]
  exact hreceive

theorem FragmentTable.Collects.step_last (hfrag : cut.IsFragment key i call)
    (hall : ∀ j < cut.count, j = i ∨ got j) : (reassembleFragment table call).1 = some payload := by
  have hsome := (h.receive hfits hfrag).assembled_of_all hall
  unfold reassembleFragment
  dsimp only
  rw [if_neg (not_past_buffer hfits hfrag), hsome]

theorem FragmentTable.Collects.exec {j : ℕ} (hj : j < cut.count) (calls : List FragmentCall)
    (hcalls : ∀ call ∈ calls, call.header.fragmentKey ≠ key ∨ ∃ i, cut.IsFragment key i call)
    (hmissing : ¬got j) (hundelivered : ¬cut.Delivered key calls j) :
    (Run.exec step table calls).Collects key cut
      fun i => got i ∨ cut.Delivered key calls i := by
  induction calls generalizing table got with
  | nil =>
    intro now
    refine (h now).congr fun i => ?_
    simp [Cut.Delivered]
  | cons call calls ih =>
    have hrest : ¬cut.Delivered key calls j := by
      rintro ⟨c, hc, hfrag⟩
      exact hundelivered ⟨c, mem_cons_of_mem call hc, hfrag⟩
    have hcalls' := fun c hc => hcalls c (mem_cons_of_mem call hc)
    rcases hcalls call mem_cons_self with hother | ⟨i, hfrag⟩
    · have hkept : (table.step call).Collects key cut got := by
        intro now
        rw [entry_step_other hother now]
        exact h now
      intro now
      refine (ih hkept hcalls' hmissing hrest now).congr fun k => ?_
      have hnot : ¬cut.IsFragment key k call := fun hfrag => hother hfrag.key
      rw [Cut.delivered_cons]
      simp [hnot]
    · have hne : j ≠ i := by
        rintro rfl
        exact hundelivered ⟨call, mem_cons_self, hfrag⟩
      have hstep := (h.step_missing hfits hfrag hj hne hmissing).2
      intro now
      refine (ih hstep hcalls' (by simp [hne, hmissing]) hrest now).congr fun k => ?_
      have hiff : cut.IsFragment key k call ↔ k = i := by
        constructor
        · exact fun hk => hk.index_unique hfrag
        · rintro rfl
          exact hfrag
      rw [Cut.delivered_cons, hiff, or_assoc, or_left_comm]

end

end Run

/-- In any order of delivery, the call that delivers the last missing fragment returns the
payload, and every call before it that delivers one returns nothing. -/
theorem reassembleFragment_any_order {payload : List (BitVec 8)} (cut : Cut payload)
    (hfits : payload.length ≤ 65535) (key : FragmentKey) (table : FragmentTable)
    (hkey : key ∉ table) (calls : List FragmentCall)
    (hcalls : ∀ call ∈ calls, call.header.fragmentKey ≠ key ∨ ∃ i, cut.IsFragment key i call)
    (hmissing : ∃ j < cut.count, ¬cut.Delivered key calls j) {i : ℕ} {call : FragmentCall}
    (hfrag : cut.IsFragment key i call) :
    ((∃ j < cut.count, ¬cut.Delivered key (calls ++ [call]) j) →
        (reassembleFragment (Run.exec step table calls) call).1 = none) ∧
      ((∀ j < cut.count, cut.Delivered key (calls ++ [call]) j) →
        (reassembleFragment (Run.exec step table calls) call).1 = some payload) := by
  obtain ⟨j, hj, hundelivered⟩ := hmissing
  have hnothing : table.Collects key cut fun _ => False := by
    intro now
    unfold entry
    rw [AList.lookup_eq_none.mpr hkey]
    exact Cut.holds_new now
  have hcollects := hnothing.exec hfits hj calls hcalls id hundelivered
  have hdelivered : ∀ k, cut.Delivered key (calls ++ [call]) k ↔
      k = i ∨ False ∨ cut.Delivered key calls k := by
    intro k
    rw [Cut.delivered_concat, false_or, or_comm]
    exact or_congr_left ⟨fun hk => hk.index_unique hfrag, fun hk => hk ▸ hfrag⟩
  constructor
  · rintro ⟨k, hk, hnot⟩
    rw [hdelivered, not_or] at hnot
    exact (hcollects.step_missing hfits hfrag hk hnot.1 hnot.2).1
  · intro hall
    apply hcollects.step_last hfits hfrag
    intro k hk
    exact (hdelivered k).mp (hall k hk)

/-- A header of a fragment under a key of its own for each identification. -/
def fragmentHeader (identification offset : UInt16) (more : Bool) : Ipv4Header where
  version := 4
  ihl := 5
  dscp := 0
  ecn := 0
  totalLength := 28
  identification := identification
  flags := if more then 1 else 0
  fragmentOffset := offset
  ttl := 64
  protocol := .udp
  checksum := 0
  src := ⟨0x0A000001⟩
  dst := ⟨0x0A000002⟩

def greeting : List (BitVec 8) := (List.range 20).map (BitVec.ofNat 8)

def greetingCut : Cut greeting where
  count := 3
  bound i := min (8 * i) 20
  two_le := by decide
  bound_zero := rfl
  bound_count := rfl
  rising := by decide
  aligned := by decide

def greetingCall (i : ℕ) : FragmentCall where
  now := 0
  header := fragmentHeader 7 (UInt16.ofNat i) (i + 1 < 3)
  payload := greetingCut.data i

theorem greetingCall_isFragment :
    ∀ i < 3, greetingCut.IsFragment (fragmentHeader 7 0 true).fragmentKey i (greetingCall i) := by
  intro i hi
  have hcases : i = 0 ∨ i = 1 ∨ i = 2 := by omega
  rcases hcases with rfl | rfl | rfl <;> exact ⟨by decide, rfl, rfl, rfl, rfl⟩

/-- The last fragment comes first and twice, another packet's fragment in between. -/
theorem reassembleFragment_any_order_greeting :
    (reassembleFragment (Run.exec step ∅
      [greetingCall 2, ⟨0, fragmentHeader 8 0 true, [1, 2, 3]⟩, greetingCall 0, greetingCall 2])
      (greetingCall 1)).1 = some greeting := by
  refine (reassembleFragment_any_order greetingCut (by decide) _ ∅ (AList.notMem_empty _) _ ?_
    ⟨1, by decide, ?_⟩ (greetingCall_isFragment 1 (by decide))).2 ?_
  · simp only [forall_mem_cons]
    exact ⟨.inr ⟨2, greetingCall_isFragment 2 (by decide)⟩, .inl (by decide),
      .inr ⟨0, greetingCall_isFragment 0 (by decide)⟩,
      .inr ⟨2, greetingCall_isFragment 2 (by decide)⟩, forall_mem_nil _⟩
  · rintro ⟨call, hcall, hfrag⟩
    simp only [mem_cons, not_mem_nil, or_false] at hcall
    rcases hcall with rfl | rfl | rfl | rfl <;> exact absurd hfrag.offset (by decide)
  · intro j hj
    have hcases : j = 0 ∨ j = 1 ∨ j = 2 := by
      have hlt : j < 3 := hj
      omega
    rcases hcases with rfl | rfl | rfl <;>
      exact ⟨_, by simp, greetingCall_isFragment _ (by decide)⟩

end EchOS.Net
