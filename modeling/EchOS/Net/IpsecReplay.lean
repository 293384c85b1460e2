import EchOS.Net.IpsecDelivery

/-! The replay window of a security association over all calls that ask it about a number. -/

namespace EchOS.Net.Ipsec.SecurityAssociation

open List

variable {sa : SecurityAssociation} {seq : BitVec 32} {accepted : List (BitVec 32)}

def called (s : SecurityAssociation × List (BitVec 32)) (seq : BitVec 32) :
    SecurityAssociation × List (BitVec 32) :=
  ((s.1.checkReplay seq).2, if (s.1.checkReplay seq).1 then seq :: s.2 else s.2)

def after (spi : BitVec 32) (seqs : List (BitVec 32)) : SecurityAssociation × List (BitVec 32) :=
  seqs.foldl called (new spi, [])

/-- The bits of the window are those of the accepted numbers, the last of which is the end of the
window. -/
structure Tracks (sa : SecurityAssociation) (accepted : List (BitVec 32)) : Prop where
  window : sa.replayWindow = 64
  bits : ∀ d < 64, (sa.replayBitmap.getLsbD d ↔
    ∃ a ∈ accepted, a.toNat + d = sa.lastSeq.toNat)
  below : ∀ a ∈ accepted, a ≤ sa.lastSeq
  reached : sa.lastSeq ∈ accepted ∨ sa.lastSeq = 0
  once : accepted.Nodup

theorem Tracks.fresh_iff (h : Tracks sa accepted) : sa.Fresh seq ↔
    seq ∉ accepted ∧ (sa.lastSeq < seq ∨ seq ≤ sa.lastSeq ∧ sa.lastSeq - seq < 64) := by
  rw [Fresh, h.window]
  by_cases hnew : sa.lastSeq < seq
  · have hout : seq ∉ accepted := fun hmem => BitVec.not_lt.mpr (h.below seq hmem) hnew
    simp [hnew, hout]
  · have hle : seq ≤ sa.lastSeq := BitVec.not_lt.mp hnew
    have hdiff := BitVec.toNat_sub_of_le hle
    rw [or_iff_right hnew, or_iff_right hnew, and_iff_right hle, and_comm]
    refine and_congr_left fun hwindow => ?_
    have hplace : (sa.lastSeq - seq).toNat % 64 = sa.lastSeq.toNat - seq.toNat :=
      (Nat.mod_eq_of_lt hwindow).trans hdiff
    rw [and_replayMask_eq_zero, hplace, h.bits _ (hdiff ▸ hwindow)]
    refine not_congr ⟨?_, fun hmem => ⟨seq, hmem, Nat.add_sub_cancel' hle⟩⟩
    rintro ⟨a, ha, hsum⟩
    have hsame : a = seq := BitVec.eq_of_toNat_eq (by rw [BitVec.le_def] at hle; omega)
    exact hsame ▸ ha

theorem getLsbD_moved (bitmap : BitVec 64) (diff : BitVec 32) {d : ℕ} (hd : d < 64) :
    (if diff < 64 then (bitmap <<< diff.toNat) ||| 1 else 1).getLsbD d ↔
      d = 0 ∨ diff.toNat ≤ d ∧ bitmap.getLsbD (d - diff.toNat) := by
  split_ifs with hdiff
  · rw [BitVec.getLsbD_or, BitVec.getLsbD_shiftLeft, Bool.or_eq_true, or_comm]
    simp [hd]
  · have hfar : ¬diff.toNat ≤ d :=
      Nat.not_le.mpr (Nat.lt_of_lt_of_le hd (BitVec.not_lt.mp hdiff))
    simp [hfar]

theorem Tracks.moved (h : Tracks sa accepted) (hnew : sa.lastSeq < seq)
    (hnodup : (seq :: accepted).Nodup) : Tracks (sa.checkReplay seq).2 (seq :: accepted) := by
  have hdiff := BitVec.toNat_sub_of_le (BitVec.le_of_lt hnew)
  have hlast : sa.lastSeq.toNat < seq.toNat := hnew
  rw [checkReplay_new hnew]
  refine ⟨h.window, fun d hd => (getLsbD_moved _ _ hd).trans ?_, ?_, .inl mem_cons_self, hnodup⟩
  · rw [hdiff, h.bits _ (by omega)]
    simp only [mem_cons, exists_eq_or_imp]
    refine or_congr (by omega) ⟨?_, ?_⟩
    · rintro ⟨hle, a, ha, hsum⟩
      exact ⟨a, ha, by omega⟩
    · rintro ⟨a, ha, hsum⟩
      have hle : a.toNat ≤ sa.lastSeq.toNat := h.below a ha
      exact ⟨by omega, a, ha, by omega⟩
  · refine forall_mem_cons.mpr ⟨BitVec.le_refl seq, fun a ha => ?_⟩
    exact BitVec.le_trans (h.below a ha) (BitVec.le_of_lt hnew)

theorem Tracks.marked (h : Tracks sa accepted) (hold : ¬sa.lastSeq < seq)
    (hfresh : sa.Fresh seq) : Tracks (sa.checkReplay seq).2 (seq :: accepted) := by
  have hle : seq ≤ sa.lastSeq := BitVec.not_lt.mp hold
  have hdiff := BitVec.toNat_sub_of_le hle
  obtain ⟨hout, hnew | ⟨-, hwindow⟩⟩ := h.fresh_iff.mp hfresh
  · exact absurd hnew hold
  rw [checkReplay_fresh hold hfresh]
  refine ⟨h.window, fun d hd => ?_, forall_mem_cons.mpr ⟨hle, h.below⟩,
    h.reached.imp_left (mem_cons_of_mem seq), nodup_cons.mpr ⟨hout, h.once⟩⟩
  have hmark : d = (sa.lastSeq - seq).toNat % 64 ↔ seq.toNat + d = sa.lastSeq.toNat := by
    have hplace : (sa.lastSeq - seq).toNat % 64 = _ := Nat.mod_eq_of_lt hwindow
    rw [BitVec.le_def] at hle
    omega
  rw [BitVec.getLsbD_or, Bool.or_eq_true, h.bits d hd, getLsbD_replayMask,
    decide_eq_true_iff, hmark, or_comm]
  simp only [mem_cons, exists_eq_or_imp]

theorem Tracks.step (h : Tracks sa accepted) (seq : BitVec 32) :
    Tracks (called (sa, accepted) seq).1 (called (sa, accepted) seq).2 := by
  unfold called
  by_cases hfresh : sa.Fresh seq
  · rw [if_pos (checkReplay_fst.mpr hfresh)]
    by_cases hnew : sa.lastSeq < seq
    · exact h.moved hnew (nodup_cons.mpr ⟨(h.fresh_iff.mp hfresh).1, h.once⟩)
    · exact h.marked hnew hfresh
  · rw [if_neg (mt checkReplay_fst.mp hfresh), checkReplay_not_fresh hfresh]
    exact h

theorem tracks_new (spi : BitVec 32) : Tracks (new spi) [] :=
  ⟨rfl, fun d _ => by simp [new], fun a ha => absurd ha not_mem_nil, .inr rfl, nodup_nil⟩

theorem Tracks.last_lt_iff (h : Tracks sa accepted) :
    sa.lastSeq < seq ↔ (∀ a ∈ accepted, a < seq) ∧ (accepted = [] → 0 < seq) := by
  constructor
  · intro hnew
    exact ⟨fun a ha => Nat.lt_of_le_of_lt (h.below a ha) hnew, fun _ => Nat.zero_lt_of_lt hnew⟩
  · rintro ⟨hall, hnone⟩
    rcases h.reached with hmem | hzero
    · exact hall _ hmem
    · rw [hzero]
      cases accepted with
      | nil => exact hnone rfl
      | cons a rest => exact Nat.zero_lt_of_lt (hall a mem_cons_self)

theorem not_fresh_iff : (∀ seq, ¬sa.Fresh seq) ↔ sa.lastSeq.toNat = 2 ^ 32 - 1 ∧
    ∀ d < sa.replayWindow.toNat, sa.replayBitmap.getLsbD (d % 64) := by
  have hlast := sa.lastSeq.isLt
  have hwindow := sa.replayWindow.isLt
  constructor
  · intro h
    refine ⟨?_, fun d hd => ?_⟩
    · by_contra hne
      refine h (BitVec.ofNat 32 (sa.lastSeq.toNat + 1)) (.inl ?_)
      rw [BitVec.lt_def, BitVec.toNat_ofNat, Nat.mod_eq_of_lt (by omega)]
      exact Nat.lt_succ_self _
    · have hdiff : sa.lastSeq - (sa.lastSeq - BitVec.ofNat 32 d) = BitVec.ofNat 32 d := by bv_omega
      have hd' : (BitVec.ofNat 32 d).toNat = d := Nat.mod_eq_of_lt (by omega)
      by_contra hclear
      refine h (sa.lastSeq - BitVec.ofNat 32 d) (.inr ⟨?_, ?_⟩)
      · rw [hdiff, BitVec.lt_def, hd']
        exact hd
      · rw [hdiff, and_replayMask_eq_zero, hd']
        exact hclear
  · rintro ⟨hend, hset⟩ seq (hnew | ⟨hin, hclear⟩)
    · have hseq := seq.isLt
      rw [BitVec.lt_def] at hnew
      omega
    · exact and_replayMask_eq_zero.mp hclear (hset _ hin)

/-- The window will end at the last number there is, and all its bits will be set: that of the
number, and those that were set and move with the window. -/
def TakesLast (sa : SecurityAssociation) (seq : BitVec 32) : Prop :=
  let last := max sa.lastSeq.toNat seq.toNat
  let moved := last - sa.lastSeq.toNat
  last = 2 ^ 32 - 1 ∧ ∀ d < sa.replayWindow.toNat, d % 64 = (last - seq.toNat) % 64 ∨
    moved ≤ d % 64 ∧ sa.replayBitmap.getLsbD (d % 64 - moved)

theorem takesLast_iff (h : sa.Fresh seq) :
    (∀ seq', ¬(sa.checkReplay seq).2.Fresh seq') ↔ sa.TakesLast seq := by
  rw [not_fresh_iff, TakesLast]
  by_cases hnew : sa.lastSeq < seq
  · have hlt : sa.lastSeq.toNat < seq.toNat := hnew
    rw [checkReplay_new hnew, Nat.max_eq_right (Nat.le_of_lt hlt),
      ← BitVec.toNat_sub_of_le (BitVec.le_of_lt hnew), Nat.sub_self]
    refine and_congr_right fun _ => forall₂_congr fun d _ => ?_
    exact getLsbD_moved _ _ (Nat.mod_lt d (by decide))
  · have hle : seq ≤ sa.lastSeq := BitVec.not_lt.mp hnew
    rw [checkReplay_fresh hnew h, Nat.max_eq_left hle, ← BitVec.toNat_sub_of_le hle, Nat.sub_self]
    refine and_congr_right fun _ => forall₂_congr fun d _ => ?_
    rw [BitVec.getLsbD_or, getLsbD_replayMask, Bool.or_eq_true, decide_eq_true_iff, or_comm]
    simp

/-- After any calls on a new association, a number is taken exactly if it was not before and lies
past all that were, or in the window. -/
theorem checkReplay_iff (spi : BitVec 32) (seqs : List (BitVec 32)) (seq : BitVec 32) :
    (after spi seqs).2.Nodup ∧ (((after spi seqs).1.checkReplay seq).1 ↔
      seq ∉ (after spi seqs).2 ∧
        ((∀ a ∈ (after spi seqs).2, a < seq) ∧ ((after spi seqs).2 = [] → 0 < seq) ∨
          seq ≤ (after spi seqs).1.lastSeq ∧ (after spi seqs).1.lastSeq - seq < 64)) := by
  have h : Tracks (after spi seqs).1 (after spi seqs).2 :=
    List.foldlRecOn (motive := fun s : SecurityAssociation × List (BitVec 32) => Tracks s.1 s.2)
      _ _ (tracks_new spi) fun _ h seq _ => h.step seq
  exact ⟨h.once, by rw [checkReplay_fst, h.fresh_iff, h.last_lt_iff]⟩

end EchOS.Net.Ipsec.SecurityAssociation

namespace EchOS.Net.Ipsec.IpsecManager

open SecurityAssociation Bytes List

def inbound (crypto : Crypto) (manager : IpsecManager) (pkt : List (BitVec 8)) : IpsecManager :=
  (manager.processInbound crypto pkt).2

def Accepts (crypto : Crypto) (manager : IpsecManager) (pkt : List (BitVec 8)) : Prop :=
  ∃ decrypted, (manager.processInbound crypto pkt).1 = .ok decrypted

/-- Once the packet is in, none is accepted that differs from it in the sequence number alone. -/
def Binds (crypto : Crypto) (manager : IpsecManager) (spi seq : BitVec 32)
    (encrypted icv : List (BitVec 8)) : Prop :=
  ∀ (later : List (List (BitVec 8))) (seq' : BitVec 32), seq' ≠ seq →
    ¬(later.foldl (inbound crypto) (manager.inbound crypto (esp spi seq encrypted icv))).Accepts
      crypto (esp spi seq' encrypted icv)

/-- The window of the association takes no number any more. -/
structure Spent (manager : IpsecManager) (spi : BitVec 32) : Prop where
  enabled : manager.enabled = true
  stale : ∃ sa, manager.sas spi = some sa ∧ ∀ seq, ¬sa.Fresh seq

variable {crypto : Crypto} {manager : IpsecManager} {spi seq : BitVec 32}
  {sa : SecurityAssociation} {encrypted icv decrypted : List (BitVec 8)}

theorem receive_eq_ok
    (h : (manager.receive crypto spi seq sa encrypted icv).1 = .ok decrypted) :
    sa.calculateIcv crypto encrypted = icv ∧ sa.Fresh seq ∧
      sa.decrypt crypto encrypted = .ok decrypted := by
  unfold receive at h
  split_ifs at h with hverify
  by_cases hfresh : sa.Fresh seq
  · refine ⟨by simpa [verifyIcv] using hverify, hfresh, ?_⟩
    have hdecrypt : (sa.checkReplay seq).2.decrypt crypto encrypted = _ :=
      (agree_checkReplay sa seq).decrypt encrypted
    have htaken := checkReplay_fst.mpr hfresh
    generalize sa.checkReplay seq = window at h hdecrypt htaken
    obtain ⟨taken, after⟩ := window
    obtain rfl : taken = true := htaken
    rw [← hdecrypt]
    cases hout : after.decrypt crypto encrypted with
    | error e => simp [hout] at h
    | ok out => simpa [hout] using h
  · simp [checkReplay_not_fresh hfresh] at h

theorem Spent.receive (h : manager.Spent spi) {spi' : BitVec 32}
    (hsa : manager.sas spi' = some sa) :
    (manager.receive crypto spi' seq sa encrypted icv).2.Spent spi := by
  obtain ⟨henabled, own, hown, hstale⟩ := h
  by_cases hspi : spi = spi'
  · subst hspi
    obtain rfl : own = sa := Option.some.inj (hown.symm.trans hsa)
    unfold IpsecManager.receive
    rw [checkReplay_not_fresh (hstale seq)]
    split_ifs <;> exact ⟨henabled, _, Function.update_self _ _ _, hstale⟩
  · have hkept (sa' : SecurityAssociation) : (manager.setSa spi' sa').sas spi = some own :=
      (Function.update_of_ne hspi _ _).trans hown
    unfold IpsecManager.receive
    split_ifs
    · exact ⟨henabled, own, hkept _, hstale⟩
    · split
      · exact ⟨henabled, own, hkept _, hstale⟩
      · split <;> exact ⟨henabled, own, hkept _, hstale⟩

theorem Spent.inbound (h : manager.Spent spi) (pkt : List (BitVec 8)) :
    (manager.inbound crypto pkt).Spent spi := by
  unfold IpsecManager.inbound processInbound
  dsimp only
  split_ifs
  · exact h
  · exact h
  · split
    · exact h
    · next hsa =>
      split_ifs
      · exact h
      · exact h
      · exact h.receive hsa

/-- The code of a packet does not cover its sequence number, so that another number makes it new
unless the packet takes the last number that the window has. -/
theorem binds_iff (crypto : Crypto) (manager : IpsecManager) (spi seq : BitVec 32)
    (sa : SecurityAssociation) (encrypted icv : List (BitVec 8)) (henabled : manager.enabled = true)
    (hsa : manager.sas spi = some sa) (hicv : icv.length = sa.icvLen crypto)
    (hsome : encrypted ≠ [])
    (haccepts : manager.Accepts crypto (esp spi seq encrypted icv)) :
    manager.Binds crypto spi seq encrypted icv ↔ sa.TakesLast seq := by
  obtain ⟨decrypted, hok⟩ := haccepts
  rw [processInbound_esp henabled hsa hicv hsome] at hok
  obtain ⟨hcode, hfresh, hdecrypt⟩ := receive_eq_ok hok
  rw [← takesLast_iff hfresh]
  obtain ⟨saStats, stats, hreceive⟩ := receive_ok manager spi hcode.symm hfresh hdecrypt
  have hafter : manager.inbound crypto (esp spi seq encrypted icv) = { manager.setSa spi
      { (sa.checkReplay seq).2 with stats := saStats } with stats } := by
    rw [inbound, processInbound_esp henabled hsa hicv hsome, hreceive]
  unfold Binds
  generalize manager.inbound crypto (esp spi seq encrypted icv) = next at hafter
  have hsas : next.sas spi = some { (sa.checkReplay seq).2 with stats := saStats } := by
    rw [hafter]
    exact Function.update_self _ _ _
  have hon : next.enabled = true := by
    rw [hafter]
    exact henabled
  constructor
  · intro hbinds seq' hnew
    have hagree : Agree sa { (sa.checkReplay seq).2 with stats := saStats } := by
      obtain ⟨hencAlg, hencKey, hauthAlg, hauthKey⟩ := agree_checkReplay sa seq
      exact ⟨hencAlg, hencKey, hauthAlg, hauthKey⟩
    have hother : seq' ≠ seq := fun heq => checkReplay_again hfresh (heq ▸ hnew)
    refine hbinds [] seq' hother ⟨decrypted, ?_⟩
    obtain ⟨_, _, hagain⟩ := receive_ok next spi
      (hcode.symm.trans (hagree.calculateIcv encrypted).symm) hnew
      ((hagree.decrypt encrypted).trans hdecrypt)
    rw [foldl_nil, processInbound_esp hon hsas (hicv.trans hagree.icvLen.symm) hsome, hagain]
  · rintro hstale later seq' - ⟨_, hforged⟩
    obtain ⟨hon', sa', hsa', hstale'⟩ := foldlRecOn (motive := (Spent · spi))
      later (inbound crypto) ⟨hon, _, hsas, hstale⟩ fun _ h pkt _ => h.inbound pkt
    rw [processInbound_header hon' hsa'] at hforged
    split_ifs at hforged
    exact hstale' seq' (receive_eq_ok hforged).2.1

/-- An authentication code that tells one packet from all others. -/
def telling : Crypto :=
  { Ends.constants with
    lookupAuthRegistry := fun _ =>
      some ⟨1, fun _ data => .ok (if data = [7] then [1] else [0]), fun _ _ _ => rfl⟩ }

def tellingManager : IpsecManager :=
  Ends.plainManager.setSa 1 { Ends.plainSa with authAlg := 9 }

theorem not_binds_telling : ¬tellingManager.Binds telling 1 1 [7] [1] := by
  have hiff := binds_iff telling tellingManager 1 1 { Ends.plainSa with authAlg := 9 } [7] [1] rfl
    rfl rfl (by decide) ⟨[7], by decide⟩
  exact fun hbinds => absurd (hiff.mp hbinds).1 (by decide)

/-- A packet is accepted, and accepted again under the next number. -/
theorem accepted_again :
    (∀ data, data ≠ [7] →
      { Ends.plainSa with authAlg := 9 }.calculateIcv telling data ≠ [1]) ∧
    (tellingManager.processInbound telling (esp 1 1 [7] [1])).1 = .ok [7] ∧
    ((tellingManager.inbound telling (esp 1 1 [7] [1])).processInbound telling
      (esp 1 2 [7] [1])).1 = .ok [7] := by
  refine ⟨fun data hdata => ?_, by decide, by decide⟩
  have hcode : { Ends.plainSa with authAlg := 9 }.calculateIcv telling data =
      (if data = [7] then [1] else [0]).take 1 := rfl
  rw [hcode, if_neg hdata]
  decide

end EchOS.Net.Ipsec.IpsecManager
