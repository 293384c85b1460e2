import EchOS.Net.Ipsec

/-! ESP packets from one manager to another. The sender never counts its packets, so that all of
them carry one sequence number, and the receiver's window takes it once. -/

namespace EchOS.Net.Ipsec

open Bytes List SecurityAssociation IpsecManager

namespace SecurityAssociation

variable {sa : SecurityAssociation} {seq : BitVec 32} (crypto : Crypto)

def Fresh (sa : SecurityAssociation) (seq : BitVec 32) : Prop :=
  sa.lastSeq < seq ∨
    sa.lastSeq - seq < sa.replayWindow ∧ sa.replayBitmap &&& replayMask (sa.lastSeq - seq) = 0

theorem checkReplay_new (h : sa.lastSeq < seq) :
    sa.checkReplay seq = (true, { sa with
      replayBitmap := if seq - sa.lastSeq < 64 then
        (sa.replayBitmap <<< (seq - sa.lastSeq).toNat) ||| 1 else 1
      lastSeq := seq }) :=
  if_pos h

theorem checkReplay_fresh (hold : ¬sa.lastSeq < seq) (h : sa.Fresh seq) :
    sa.checkReplay seq = (true, { sa with
      replayBitmap := sa.replayBitmap ||| replayMask (sa.lastSeq - seq) }) := by
  obtain ⟨hwindow, hclear⟩ := h.resolve_left hold
  rw [checkReplay, if_neg hold, if_neg (BitVec.not_le.mpr hwindow), if_neg (not_not.mpr hclear)]

theorem checkReplay_not_fresh (h : ¬sa.Fresh seq) : sa.checkReplay seq = (false, sa) := by
  obtain ⟨hold, hseen⟩ := not_or.mp h
  rw [checkReplay, if_neg hold]
  by_cases hwindow : sa.replayWindow ≤ sa.lastSeq - seq
  · exact if_pos hwindow
  · have hset : sa.replayBitmap &&& replayMask (sa.lastSeq - seq) ≠ 0 :=
      fun hclear => hseen ⟨BitVec.not_le.mp hwindow, hclear⟩
    exact (if_neg hwindow).trans (if_pos hset)

theorem getLsbD_replayMask (diff : BitVec 32) (i : ℕ) :
    (replayMask diff).getLsbD i = decide (i = diff.toNat % 64) := by
  rw [replayMask, Bool.eq_iff_iff]
  simp
  omega

theorem and_replayMask_eq_zero {bitmap : BitVec 64} {diff : BitVec 32} :
    bitmap &&& replayMask diff = 0 ↔ ¬bitmap.getLsbD (diff.toNat % 64) := by
  constructor
  · intro hzero
    have hbit := congrArg (fun v => v.getLsbD (diff.toNat % 64)) hzero
    simpa [getLsbD_replayMask] using hbit
  · intro hclear
    refine BitVec.eq_of_getLsbD_eq fun i _ => ?_
    rw [BitVec.getLsbD_and, getLsbD_replayMask]
    by_cases hi : i = diff.toNat % 64
    · simp [hi, hclear]
    · simp [hi]

theorem or_and_replayMask_ne_zero (bitmap : BitVec 64) (diff : BitVec 32) :
    (bitmap ||| replayMask diff) &&& replayMask diff ≠ 0 := by
  rw [ne_eq, and_replayMask_eq_zero, BitVec.getLsbD_or, getLsbD_replayMask]
  simp

theorem checkReplay_fst : (sa.checkReplay seq).1 ↔ sa.Fresh seq := by
  by_cases hfresh : sa.Fresh seq
  · by_cases hnew : sa.lastSeq < seq
    · simp [checkReplay_new hnew, hfresh]
    · simp [checkReplay_fresh hnew hfresh, hfresh]
  · simp [checkReplay_not_fresh hfresh, hfresh]

theorem checkReplay_again (h : sa.Fresh seq) : ¬(sa.checkReplay seq).2.Fresh seq := by
  by_cases hnew : sa.lastSeq < seq
  · rw [checkReplay_new hnew]
    rintro (hlater | ⟨-, hclear⟩)
    · exact BitVec.lt_irrefl seq hlater
    · have hfirst : replayMask (seq - seq) = 1 := by rw [BitVec.sub_self]; rfl
      dsimp only at hclear
      rw [hfirst] at hclear
      split_ifs at hclear
      · have hset := or_and_replayMask_ne_zero (sa.replayBitmap <<< (seq - sa.lastSeq).toNat) 0
        exact hset hclear
      · exact absurd hclear (by decide)
  · rw [checkReplay_fresh hnew h]
    rintro (hlater | ⟨-, hclear⟩)
    · exact hnew hlater
    · exact or_and_replayMask_ne_zero _ _ hclear

section Agree

variable {crypto : Crypto} {a b : SecurityAssociation}

theorem Agree.trans {c : SecurityAssociation} (h : Agree a b) (h' : Agree b c) : Agree a c :=
  ⟨h.1.trans h'.1, h.2.trans h'.2, h.3.trans h'.3, h.4.trans h'.4⟩

theorem agree_checkReplay (sa : SecurityAssociation) (seq : BitVec 32) :
    Agree sa (sa.checkReplay seq).2 := by
  unfold checkReplay
  dsimp only
  split_ifs <;> exact ⟨rfl, rfl, rfl, rfl⟩

theorem Agree.icvLen (h : Agree a b) : b.icvLen crypto = a.icvLen crypto := by
  unfold SecurityAssociation.icvLen authKeyMaterial
  rw [h.authAlg, h.encKey, h.authKey]

theorem Agree.registeredIcv (h : Agree a b) (data : List (BitVec 8)) :
    b.registeredIcv crypto data = a.registeredIcv crypto data := by
  unfold SecurityAssociation.registeredIcv authKeyMaterial
  rw [h.authAlg, h.encKey, h.authKey]
  cases crypto.lookupAuthRegistry b.authAlg with
  | none => rfl
  | some entry => simp only [entry.agree a b h]

theorem Agree.calculateIcv (h : Agree a b) (data : List (BitVec 8)) :
    b.calculateIcv crypto data = a.calculateIcv crypto data := by
  unfold SecurityAssociation.calculateIcv authKeyMaterial
  rw [h.icvLen, h.registeredIcv, h.authAlg, h.encKey, h.authKey]

theorem Agree.decrypt (h : Agree a b) (data : List (BitVec 8)) :
    b.decrypt crypto data = a.decrypt crypto data := by
  unfold SecurityAssociation.decrypt
  rw [h.encAlg, crypto.decrypt_agree a b h]

end Agree

/-- The cipher of an association turns every packet into something that it turns back. -/
def Inverts (crypto : Crypto) (sa : SecurityAssociation) : Prop :=
  ∀ entropy pkt, ∃ encrypted, sa.encrypt crypto entropy pkt = .ok encrypted ∧
    sa.decrypt crypto encrypted = .ok pkt

/-- The authentication codes of an association have one length, as those of all algorithms that
are not registered ones do. -/
def FixedIcv (crypto : Crypto) (sa : SecurityAssociation) : Prop :=
  ∀ data data', (sa.calculateIcv crypto data).length = (sa.calculateIcv crypto data').length

theorem length_hmacWithPad (digest : Digest) (key message : List (BitVec 8))
    (blockSize : ℕ) : (hmacWithPad crypto digest key message blockSize).length = digest.size :=
  crypto.length_hash _ _

theorem length_calculateDefaultAuthIcv (key data data' : List (BitVec 8)) :
    (calculateDefaultAuthIcv crypto key data).length =
      (calculateDefaultAuthIcv crypto key data').length := by
  unfold calculateDefaultAuthIcv
  split_ifs <;> rw [length_hmacWithPad, length_hmacWithPad]

theorem fixedIcv_of_unregistered {crypto : Crypto}
    (h : crypto.lookupAuthRegistry sa.authAlg = none) : sa.FixedIcv crypto := by
  intro data data'
  unfold calculateIcv registeredIcv
  rw [h]
  dsimp only
  split_ifs
  · rw [Vector.length_toList, Vector.length_toList]
  · rfl
  all_goals rw [length_take, length_take]
  any_goals rw [length_hmacWithPad, length_hmacWithPad]
  rw [length_calculateDefaultAuthIcv crypto _ data data']

end SecurityAssociation

def esp (spi seq : BitVec 32) (encrypted icv : List (BitVec 8)) : List (BitVec 8) :=
  toBe 4 spi.toNat ++ toBe 4 seq.toNat ++ encrypted ++ icv

section Esp

variable {spi seq : BitVec 32} {encrypted icv : List (BitVec 8)}

theorem length_esp : (esp spi seq encrypted icv).length = 8 + encrypted.length + icv.length := by
  simp only [esp, length_append, length_toBe]

theorem ofBe_field (v : BitVec 32) : BitVec.ofNat 32 (ofBe (toBe 4 v.toNat)) = v := by
  rw [ofBe_toBe (show v.toNat < 256 ^ 4 from v.isLt), BitVec.ofNat_toNat, BitVec.setWidth_eq]

theorem slice_esp_spi : slice (esp spi seq encrypted icv) 0 4 = toBe 4 spi.toNat := by
  have hsplit : esp spi seq encrypted icv =
      [] ++ (toBe 4 spi.toNat ++ (toBe 4 seq.toNat ++ encrypted ++ icv)) := by
    simp only [esp, append_assoc, nil_append]
  rw [hsplit]
  exact slice_middle rfl (by rw [length_toBe])

theorem slice_esp_seq : slice (esp spi seq encrypted icv) 4 8 = toBe 4 seq.toNat := by
  have hsplit : esp spi seq encrypted icv =
      toBe 4 spi.toNat ++ (toBe 4 seq.toNat ++ (encrypted ++ icv)) := by
    simp only [esp, append_assoc]
  rw [hsplit]
  exact slice_middle (length_toBe 4 _) (by rw [length_toBe])

theorem slice_esp_encrypted :
    slice (esp spi seq encrypted icv) 8 (8 + encrypted.length) = encrypted := by
  have hsplit : esp spi seq encrypted icv =
      (toBe 4 spi.toNat ++ toBe 4 seq.toNat) ++ (encrypted ++ icv) := by
    simp only [esp, append_assoc]
  rw [hsplit]
  exact slice_middle (by rw [length_append, length_toBe, length_toBe]) rfl

theorem drop_esp : (esp spi seq encrypted icv).drop (8 + encrypted.length) = icv := by
  apply drop_left'
  simp only [length_append, length_toBe]

end Esp

namespace IpsecManager

variable {crypto : Crypto} {manager : IpsecManager} {spi seq : BitVec 32}
  {sa : SecurityAssociation} {encrypted icv : List (BitVec 8)}

def Selects (manager : IpsecManager) (spi : BitVec 32) (sel : Selector) : Prop :=
  ∃ policy, manager.findOutboundPolicy sel = some policy ∧ policy.action = .ipsec ∧
    policy.saSpi = some spi

section

variable (henabled : manager.enabled = true) (hsa : manager.sas spi = some sa)
include henabled hsa

theorem processOutbound_eq {entropy pkt : List (BitVec 8)} {sel : Selector}
    (hselects : manager.Selects spi sel)
    (hencrypt : sa.encrypt crypto entropy pkt = .ok encrypted) :
    ∃ stats, manager.processOutbound crypto entropy pkt sel =
      (.ok (esp spi sa.lastSeq encrypted (sa.calculateIcv crypto encrypted)),
        { manager with stats }) := by
  obtain ⟨policy, hpolicy, haction, hspi⟩ := hselects
  have houtbound : manager.outboundSa sel = some (spi, sa) := by
    simp [outboundSa, hpolicy, haction, hspi, hsa]
  have hon : ¬manager.enabled = false := by simp [henabled]
  unfold processOutbound
  rw [if_neg hon, houtbound]
  dsimp only
  rw [hencrypt]
  exact ⟨_, rfl⟩

theorem processInbound_header :
    let pkt := esp spi seq encrypted icv
    let encryptedEnd := pkt.length - sa.icvLen crypto
    manager.processInbound crypto pkt =
      if pkt.length < 8 + sa.icvLen crypto then (.error .invalidPacket, manager)
      else if (slice pkt 8 encryptedEnd).isEmpty then (.error .invalidPacket, manager)
      else manager.receive crypto spi seq sa (slice pkt 8 encryptedEnd)
        (pkt.drop encryptedEnd) := by
  intro pkt encryptedEnd
  have hlength : pkt.length = 8 + encrypted.length + icv.length := length_esp
  have hon : ¬manager.enabled = false := by simp [henabled]
  unfold processInbound
  rw [if_neg hon, if_neg (by omega), slice_esp_spi, slice_esp_seq, ofBe_field, ofBe_field]
  dsimp only
  rw [hsa]

theorem processInbound_esp (hicv : icv.length = sa.icvLen crypto) (hsome : encrypted ≠ []) :
    manager.processInbound crypto (esp spi seq encrypted icv) =
      manager.receive crypto spi seq sa encrypted icv := by
  have hlength : (esp spi seq encrypted icv).length = 8 + encrypted.length + icv.length :=
    length_esp
  have hend : (esp spi seq encrypted icv).length - sa.icvLen crypto =
    8 + encrypted.length := by omega
  have hfull : ¬encrypted.isEmpty = true := by simp [hsome]
  rw [processInbound_header henabled hsa, if_neg (by omega), hend, slice_esp_encrypted, drop_esp,
    if_neg hfull]

theorem processInbound_refused (seq : BitVec 32) (hfixed : sa.FixedIcv crypto)
    (h : icv = sa.calculateIcv crypto encrypted)
    (hbad : icv.length ≠ sa.icvLen crypto ∨ encrypted = []) (decrypted : List (BitVec 8)) :
    (manager.processInbound crypto (esp spi seq encrypted icv)).1 ≠ .ok decrypted := by
  have hlength : (esp spi seq encrypted icv).length = 8 + encrypted.length + icv.length :=
    length_esp
  rw [processInbound_header henabled hsa]
  split_ifs with hshort hempty
  · intro hok
    cases hok
  · intro hok
    cases hok
  · generalize esp spi seq encrypted icv = pkt at hlength hshort hempty ⊢
    have hverify : sa.verifyIcv crypto (slice pkt 8 (pkt.length - sa.icvLen crypto))
        (pkt.drop (pkt.length - sa.icvLen crypto)) = false := by
      apply decide_eq_false
      intro heq
      have hlengths := congrArg List.length heq
      rw [hfixed _ encrypted, ← h, length_drop] at hlengths
      obtain hicv | rfl := hbad
      · omega
      · apply hempty
        rw [List.isEmpty_iff, ← length_eq_zero_iff, slice, length_take]
        simp only [length_nil] at hlength
        omega
    unfold receive
    rw [if_pos hverify]
    intro hok
    cases hok

end

variable (manager spi) in
theorem receive_ok (hicv : icv = sa.calculateIcv crypto encrypted) (hfresh : sa.Fresh seq)
    {pkt : List (BitVec 8)} (hdecrypt : sa.decrypt crypto encrypted = .ok pkt) :
    ∃ saStats stats, manager.receive crypto spi seq sa encrypted icv = (.ok pkt,
      { manager.setSa spi { (sa.checkReplay seq).2 with stats := saStats } with stats }) := by
  have hverify : ¬sa.verifyIcv crypto encrypted icv = false := by
    simp [verifyIcv, hicv]
  have hagree := agree_checkReplay sa seq
  have htaken := checkReplay_fst.mpr hfresh
  unfold receive
  rw [if_neg hverify]
  generalize sa.checkReplay seq = window at hagree htaken ⊢
  obtain ⟨taken, sa'⟩ := window
  obtain rfl : taken = true := htaken
  dsimp only
  rw [hagree.decrypt, hdecrypt]
  exact ⟨_, _, rfl⟩

end IpsecManager

/-! ### Delivery -/

/-- A packet with what policies select it by, and the random bytes that are drawn for it. -/
structure Packet where
  data : List (BitVec 8)
  sel : Selector
  entropy : List (BitVec 8)

structure Ends where
  sender : IpsecManager
  receiver : IpsecManager

namespace Ends

def exchange (crypto : Crypto) (ends : Ends) (packet : Packet) :
    Except IpsecError (List (BitVec 8)) × Ends :=
  match ends.sender.processOutbound crypto packet.entropy packet.data packet.sel with
  | (.error e, sender) => (.error e, { ends with sender })
  | (.ok pkt, sender) =>
    let inbound := ends.receiver.processInbound crypto pkt
    (inbound.1, ⟨sender, inbound.2⟩)

def deliver (crypto : Crypto) : Ends → List Packet → List (Except IpsecError (List (BitVec 8)))
  | _, [] => []
  | ends, packet :: rest =>
    let result := ends.exchange crypto packet
    result.1 :: deliver crypto result.2 rest

def Delivers (crypto : Crypto) (ends : Ends) (packets : List Packet) : Prop :=
  ends.deliver crypto packets = packets.map fun packet => .ok packet.data

/-- Managers that are switched on and hold associations of one index with the same algorithms and
keys. -/
structure Linked (ends : Ends) (spi : BitVec 32) (a b : SecurityAssociation) : Prop where
  sending : ends.sender.enabled = true
  receiving : ends.receiver.enabled = true
  sender : ends.sender.sas spi = some a
  receiver : ends.receiver.sas spi = some b
  agree : Agree a b

variable {crypto : Crypto} {ends : Ends} {spi : BitVec 32} {a b : SecurityAssociation}
  {packet : Packet}

theorem Linked.exchange (hlinked : ends.Linked spi a b) (hinverts : a.Inverts crypto)
    (hfixed : a.FixedIcv crypto) (hselects : ends.sender.Selects spi packet.sel) :
    ((ends.exchange crypto packet).1 = .ok packet.data ↔
      b.Fresh a.lastSeq ∧ (a.calculateIcv crypto []).length = a.icvLen crypto ∧
        a.encrypt crypto packet.entropy packet.data ≠ .ok []) ∧
    ((ends.exchange crypto packet).1 = .ok packet.data →
      ∃ b', (ends.exchange crypto packet).2.Linked spi a b' ∧ ¬b'.Fresh a.lastSeq ∧
        (ends.exchange crypto packet).2.sender.spsOutbound = ends.sender.spsOutbound) := by
  obtain ⟨encrypted, hencrypt, hdecrypt⟩ := hinverts packet.entropy packet.data
  obtain ⟨stats, hout⟩ :=
    processOutbound_eq hlinked.sending hlinked.sender hselects hencrypt
  have hexchange : ends.exchange crypto packet =
      ((ends.receiver.processInbound crypto
          (esp spi a.lastSeq encrypted (a.calculateIcv crypto encrypted))).1,
        ⟨{ ends.sender with stats }, (ends.receiver.processInbound crypto
          (esp spi a.lastSeq encrypted (a.calculateIcv crypto encrypted))).2⟩) := by
    rw [Ends.exchange, hout]
  have hicv : a.calculateIcv crypto encrypted = b.calculateIcv crypto encrypted :=
    (hlinked.agree.calculateIcv encrypted).symm
  have hlength : (a.calculateIcv crypto encrypted).length = (a.calculateIcv crypto []).length :=
    hfixed _ _
  rw [hexchange, hencrypt]
  by_cases hgood : (a.calculateIcv crypto []).length = a.icvLen crypto ∧ encrypted ≠ []
  · have hfull : (a.calculateIcv crypto encrypted).length = b.icvLen crypto := by
      rw [hlength, hgood.1, hlinked.agree.icvLen]
    rw [processInbound_esp hlinked.receiving hlinked.receiver hfull hgood.2]
    have hsome : (Except.ok encrypted : Except IpsecError _) ≠ .ok [] :=
      fun heq => hgood.2 (Except.ok.inj heq)
    by_cases hseq : b.Fresh a.lastSeq
    · obtain ⟨saStats, stats, hreceive⟩ := receive_ok ends.receiver spi hicv hseq
        ((hlinked.agree.decrypt encrypted).trans hdecrypt)
      obtain ⟨hencAlg, hencKey, hauthAlg, hauthKey⟩ := agree_checkReplay b a.lastSeq
      rw [hreceive]
      refine ⟨⟨fun _ => ⟨hseq, hgood.1, hsome⟩, fun _ => rfl⟩, fun _ => ?_⟩
      exact ⟨_, ⟨hlinked.sending, hlinked.receiving, hlinked.sender, Function.update_self _ _ _,
        hlinked.agree.trans ⟨hencAlg, hencKey, hauthAlg, hauthKey⟩⟩, checkReplay_again hseq, rfl⟩
    · have hrefused : (ends.receiver.receive crypto spi a.lastSeq b encrypted
          (a.calculateIcv crypto encrypted)).1 ≠ .ok packet.data := by
        have hverify : ¬b.verifyIcv crypto encrypted (a.calculateIcv crypto encrypted) = false := by
          simp [verifyIcv, hicv]
        unfold receive
        rw [if_neg hverify, checkReplay_not_fresh hseq]
        intro hok
        cases hok
      exact ⟨⟨fun hok => absurd hok hrefused, fun h => absurd h.1 hseq⟩,
        fun hok => absurd hok hrefused⟩
  · have hbad : (a.calculateIcv crypto encrypted).length ≠ b.icvLen crypto ∨ encrypted = [] := by
      rw [hlength, hlinked.agree.icvLen]
      exact (not_and_or.mp hgood).imp id not_not.mp
    have hfixed' : b.FixedIcv crypto := by
      intro data data'
      rw [hlinked.agree.calculateIcv, hlinked.agree.calculateIcv]
      exact hfixed data data'
    have hrefused := processInbound_refused hlinked.receiving hlinked.receiver
      a.lastSeq hfixed' hicv hbad packet.data
    refine ⟨⟨fun hok => absurd hok hrefused, ?_⟩, fun hok => absurd hok hrefused⟩
    rintro ⟨-, hfull, hsome⟩
    exact absurd ⟨hfull, fun hempty => hsome (by rw [hempty])⟩ hgood

/-- At most one packet is delivered. -/
theorem delivers_iff (crypto : Crypto) (ends : Ends) (spi : BitVec 32) (a b : SecurityAssociation)
    (packets : List Packet) (hlinked : ends.Linked spi a b) (hinverts : a.Inverts crypto)
    (hfixed : a.FixedIcv crypto)
    (hselects : ∀ packet ∈ packets, ends.sender.Selects spi packet.sel) :
    ends.Delivers crypto packets ↔
      packets = [] ∨ ∃ packet, packets = [packet] ∧ b.Fresh a.lastSeq ∧
        (a.calculateIcv crypto []).length = a.icvLen crypto ∧
        a.encrypt crypto packet.entropy packet.data ≠ .ok [] := by
  cases packets with
  | nil => exact ⟨fun _ => .inl rfl, fun _ => rfl⟩
  | cons packet rest =>
    obtain ⟨hpacket, hrest⟩ := forall_mem_cons.mp hselects
    obtain ⟨hiff, hafter⟩ := hlinked.exchange hinverts hfixed hpacket
    have hsplit : ends.Delivers crypto (packet :: rest) ↔
        (ends.exchange crypto packet).1 = .ok packet.data ∧
          (ends.exchange crypto packet).2.Delivers crypto rest := by
      unfold Delivers
      rw [deliver, map_cons, cons.injEq]
    rw [hsplit]
    constructor
    · rintro ⟨hok, hdelivers⟩
      obtain ⟨b', hlinked', hused, hpolicies⟩ := hafter hok
      cases rest with
      | nil => exact .inr ⟨packet, rfl, hiff.mp hok⟩
      | cons second rest =>
        have hsecond : (ends.exchange crypto packet).2.sender.Selects spi second.sel := by
          unfold Selects findOutboundPolicy
          rw [hpolicies]
          exact hrest second (mem_cons_self ..)
        have hok' : ((ends.exchange crypto packet).2.exchange crypto second).1 =
            .ok second.data := by
          unfold Delivers at hdelivers
          rw [deliver, map_cons, cons.injEq] at hdelivers
          exact hdelivers.1
        exact absurd ((hlinked'.exchange hinverts hfixed hsecond).1.mp hok').1 hused
    · rintro (hnil | ⟨single, hsingle, hdelivered⟩)
      · cases hnil
      · obtain ⟨rfl, rfl⟩ := cons.inj hsingle
        exact ⟨hiff.mpr hdelivered, rfl⟩

/-- A toy scheme for witnesses, without registered algorithms: hashes of the real lengths that are
all zero, and ciphers that hide nothing. -/
def constants : Crypto where
  hash digest _ := List.replicate digest.size 0
  length_hash _ _ := length_replicate
  aesXcbc _ _ := Vector.replicate 12 0
  encrypt _ _ pkt := .ok pkt
  decrypt _ pkt := .ok pkt
  decrypt_agree _ _ _ := rfl
  lookupAuthRegistry _ := none

def plainSa : SecurityAssociation := { new 1 with encAlg := ipsecEncNull }

def sendAll : SecurityPolicy := ⟨0, 0, 0, 0, 0, (0, 65535), (0, 65535), .ipsec, some 1⟩

def plainManager : IpsecManager :=
  ⟨fun spi => if spi = 1 then some plainSa else none, [sendAll], true, ⟨0, 0, 0, 0⟩⟩

def onePacket : Packet := ⟨[7], ⟨1, 2, 6, 80, 80⟩, []⟩

/-- One packet is delivered. -/
theorem delivers_one : (Ends.mk plainManager plainManager).Delivers constants [onePacket] := by
  apply (delivers_iff constants ⟨plainManager, plainManager⟩ 1 plainSa plainSa [onePacket]
    ⟨rfl, rfl, by decide, by decide, rfl, rfl, rfl, rfl⟩ (fun _ pkt => ⟨pkt, rfl, rfl⟩)
    (fixedIcv_of_unregistered rfl) ?_).mpr
  · refine .inr ⟨onePacket, rfl, .inr ⟨by decide, by decide⟩, by decide, ?_⟩
    intro hempty
    cases hempty
  · intro packet hpacket
    obtain rfl := mem_singleton.mp hpacket
    exact ⟨sendAll, by decide, rfl, rfl⟩

/-- The second packet is taken for a replay of the first. -/
theorem second_packet_refused :
    (Ends.mk plainManager plainManager).deliver constants [onePacket, onePacket] =
      [.ok [7], .error .replayAttack] := by
  decide

end Ends

end EchOS.Net.Ipsec
