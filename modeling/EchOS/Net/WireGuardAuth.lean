import EchOS.Lib.Fallible
import EchOS.Net.WireGuardHandshake

/-! Who a responder's session belongs to: the peer is chosen by the packet's source endpoint, and
the static key in the packet is whatever the sender put there. -/

namespace EchOS.Net.Wg

open Bytes Option List Except Crypto Fallible

/-- Only what encryption makes is decrypted. -/
def Crypto.Exact (crypto : Crypto) : Prop := ∀ key nonce cipher aad tag plain,
  crypto.aeadDecrypt key nonce cipher aad tag = some plain →
    crypto.aeadEncrypt key nonce plain aad = (cipher, tag)

section Opening

variable {crypto : Crypto} {noise noise' : NoiseState} {cipher plain : List (BitVec 8)}

theorem eq_aeadSeal_of_decryptAndHash (hexact : crypto.Exact) (hkey : noise.hasKey = true)
    (h : noise.decryptAndHash crypto cipher = some (plain, noise')) :
    cipher = noise.aeadSeal crypto plain := by
  rw [NoiseState.decryptAndHash, if_pos hkey] at h
  by_cases hshort : cipher.length < 16
  · rw [if_pos hshort] at h
    cases h
  · rw [if_neg hshort] at h
    obtain ⟨opened, hopened, hpair⟩ := map_eq_some_iff.mp h
    obtain ⟨rfl, -⟩ := Prod.mk.inj hpair
    have htag : (cipher.drop (cipher.length - 16)).length = 16 := by
      rw [length_drop]
      omega
    rw [NoiseState.aeadSeal, hexact _ _ _ _ _ _ hopened]
    simp only [toList_array htag, take_append_drop]

theorem aeadSeal_injective {plain' : List (BitVec 8)} (hkey : noise.hasKey = true)
    (h : noise.aeadSeal crypto plain = noise.aeadSeal crypto plain') : plain = plain' := by
  have hopened : noise.decryptAndHash crypto (noise.aeadSeal crypto plain) = _ :=
    decryptAndHash_aeadSeal hkey
  rw [h, decryptAndHash_aeadSeal hkey] at hopened
  exact (congrArg Prod.fst (some.inj hopened)).symm

end Opening

namespace WgDevice

variable {crypto : Crypto} {device : WgDevice} {pkt : List (BitVec 8)} {src : Endpoint}
  {opened : Opened} {peer : WgPeer}

/-- The sender of a packet has put a static key into it. -/
def CarriesStatic (crypto : Crypto) (device : WgDevice) (peer : WgPeer) (pkt : List (BitVec 8))
    (static : Key) : Prop :=
  slice pkt 40 88 = (device.staticNoise crypto peer pkt).aeadSeal crypto static.toList

theorem CarriesStatic.unique {static static' : Key}
    (h : CarriesStatic crypto device peer pkt static)
    (hkey : (device.staticNoise crypto peer pkt).hasKey = true)
    (h' : CarriesStatic crypto device peer pkt static') : static = static' :=
  Vector.toList_inj.mp (aeadSeal_injective hkey (h.symm.trans h'))

theorem checkInitiation_eq_ok {senderIndex : UInt32}
    (h : device.checkInitiation crypto pkt src = .ok (peer, senderIndex)) :
    wgInitiationLen ≤ pkt.length ∧ device.selectHandshakePeer src = .ok peer := by
  rw [checkInitiation] at h
  cases hselect : device.selectHandshakePeer src with
  | error e =>
    rw [hselect] at h
    split_ifs at h
  | ok q =>
    rw [hselect] at h
    split_ifs at h with hshort
    obtain ⟨rfl, -⟩ := Prod.mk.inj (ok.inj h)
    exact ⟨Nat.le_of_not_lt hshort, rfl⟩

theorem openStatic_eq_ok {static : Key} {noise : NoiseState} (hlong : wgInitiationLen ≤ pkt.length)
    (h : device.openStatic crypto peer pkt = .ok (static, noise)) :
    (device.staticNoise crypto peer pkt).hasKey = true ∧
      (device.staticNoise crypto peer pkt).decryptAndHash crypto (slice pkt 40 88) =
        some (static.toList, noise) := by
  rw [openStatic] at h
  split at h
  · cases h
  · next bytes noise' hopened =>
    split_ifs at h with hlength
    obtain ⟨rfl, rfl⟩ := Prod.mk.inj (ok.inj h)
    rw [toList_array hlength]
    refine ⟨?_, hopened⟩
    by_contra hkey
    rw [NoiseState.decryptAndHash, if_neg hkey] at hopened
    have hbytes : slice pkt 40 88 = bytes := congrArg Prod.fst (some.inj hopened)
    have hslice : (slice pkt 40 88).length = 88 - 40 :=
      length_slice (Nat.le_trans (by decide) hlong)
    rw [hbytes, hlength] at hslice
    exact absurd hslice (by decide)

theorem openInitiation_eq_ok (h : device.openInitiation crypto pkt src = .ok opened) :
    wgInitiationLen ≤ pkt.length ∧ device.selectHandshakePeer src = .ok opened.peer ∧
      ∃ noise, device.openStatic crypto opened.peer pkt = .ok (opened.initiatorStatic, noise) := by
  obtain ⟨checked, hchecked, hrest⟩ := bind_eq_ok.mp h
  obtain ⟨static, hstatic, hrest⟩ := bind_eq_ok.mp hrest
  obtain ⟨noise, -, hopened⟩ := bind_eq_ok.mp hrest
  cases hopened
  obtain ⟨hlong, hselect⟩ := checkInitiation_eq_ok hchecked
  exact ⟨hlong, hselect, static.2, hstatic⟩

/-- A packet that `initiateHandshake` made for the device carries the sender's own key. -/
theorem carriesStatic_of_initiate {sender : WgDevice} {entry : WgPeer} {draw : Draw}
    {now : UInt64} (hentry : entry.publicKey = device.publicKey)
    (hpair : device.publicKey = crypto.publicKey (clamp device.privateKey))
    (hpkt : (sender.initiateHandshake crypto entry draw now).1 = .ok pkt)
    (hkey : (device.staticNoise crypto peer pkt).hasKey = true) :
    CarriesStatic crypto device peer pkt (crypto.publicKey (clamp sender.privateKey)) := by
  obtain ⟨t, ht⟩ : ∃ t, t = transcript crypto sender entry draw.seed zeroKey := ⟨_, rfl⟩
  obtain ⟨noise, mac2, hnoise, -, hmessage⟩ := initiateHandshake_eq now ht
  simp only [hpkt] at hmessage
  split_ifs at hmessage
  replace hmessage := ok.inj hmessage
  have hes : crypto.x25519 (clamp device.privateKey) t.ephemeral = t.es := by
    rw [ht]
    show _ = crypto.x25519 (clamp draw.seed) entry.publicKey
    rw [hentry, hpair]
    exact crypto.x25519_comm device.privateKey draw.seed
  have hre : array 32 (slice pkt 8 40) = t.ephemeral := by
    rw [hmessage, append_assoc, append_assoc, append_assoc, append_assoc,
      slice_middle (by simp) (by simp), array_toList]
  have hresponder : device.publicKey = t.responder := by
    rw [ht]
    exact hentry.symm
  have hstatic : device.staticNoise crypto peer pkt =
      { t.staticNoise crypto with ps := peer.presharedKey } := by
    simp only [staticNoise, hre, hes, hresponder]
    rfl
  rw [hnoise] at hstatic
  rw [hstatic] at hkey
  have hsealed : noise.encryptAndHash crypto t.static.toList = _ := encryptAndHash_of_hasKey hkey
  have hkeySender : t.static = crypto.publicKey (clamp sender.privateKey) := by
    rw [ht]
    rfl
  rw [CarriesStatic, hstatic, ← hkeySender, hmessage]
  simp only [hsealed]
  rw [append_assoc, append_assoc, append_assoc]
  exact slice_middle (by simp) (by simp)

/-- The static key that is decrypted for an established session is the peer's exactly when the
sender has put the peer's key into the packet; for a packet that `initiateHandshake` made, exactly
when the sending device's own key is the peer's. -/
theorem initiation_authenticates_iff {draw : Draw} {reply : List (BitVec 8)} {device' : WgDevice}
    (hexact : crypto.Exact)
    (h : device.processInitiation crypto pkt src draw = (.ok reply, device')) :
    ∃ (opened : Opened) (session : WgSession),
      device.openInitiation crypto pkt src = .ok opened ∧
      device.selectHandshakePeer src = .ok opened.peer ∧
      session.established = true ∧
      device' = device.setSession opened.peer.publicKey session ∧
      (opened.initiatorStatic = opened.peer.publicKey ↔
        CarriesStatic crypto device opened.peer pkt opened.peer.publicKey) ∧
      ∀ (sender : WgDevice) (entry : WgPeer) (made : Draw) (now : UInt64),
        device.publicKey = crypto.publicKey (clamp device.privateKey) →
        entry.publicKey = device.publicKey →
        (sender.initiateHandshake crypto entry made now).1 = .ok pkt →
        (opened.initiatorStatic = opened.peer.publicKey ↔
          crypto.publicKey (clamp sender.privateKey) = opened.peer.publicKey) := by
  rw [processInitiation] at h
  split at h
  · cases h
  · next opened hopened =>
    obtain ⟨hlong, hselect, noise, hstatic⟩ := openInitiation_eq_ok hopened
    obtain ⟨hkey, hdecrypted⟩ := openStatic_eq_ok hlong hstatic
    have hcarries : CarriesStatic crypto device opened.peer pkt opened.initiatorStatic :=
      eq_aeadSeal_of_decryptAndHash hexact hkey hdecrypted
    refine ⟨opened, _, hopened, hselect, ?_, (congrArg Prod.snd h).symm, ?_, ?_⟩
    · rfl
    · constructor
      · intro heq
        rw [heq] at hcarries
        exact hcarries
      · intro hpeer
        exact hcarries.unique hkey hpeer
    · intro sender entry made now hpair hentry hpkt
      have hsender := carriesStatic_of_initiate hentry hpair hpkt hkey
      rw [hcarries.unique hkey hsender]

end WgDevice

theorem Crypto.exact_clear : clear.Exact := by
  intro key nonce cipher aad tag plain h
  simp only [clear] at h ⊢
  split_ifs at h with htag
  rw [some.inj h, htag]

def firstPrivate : Key := Vector.replicate 32 8

def secondPrivate : Key := Vector.replicate 32 16

theorem first_ne_second : clear.publicKey (clamp firstPrivate) ≠
    clear.publicKey (clamp secondPrivate) := by
  intro h
  have hbyte := congrArg (fun key : Key => key[5]) h
  simp [publicKey, clear, clamp, firstPrivate, secondPrivate, basePoint,
    zeroKey] at hbyte

def firstPeer : WgPeer :=
  WgPeer.new (clear.publicKey (clamp firstPrivate)) ⟨0x0A000008, 51820⟩

def secondPeer : WgPeer :=
  WgPeer.new (clear.publicKey (clamp secondPrivate)) ⟨0x0A000010, 51820⟩

def gateway : WgDevice :=
  { privateKey := Vector.replicate 32 2
    publicKey := clear.publicKey (clamp (Vector.replicate 32 2))
    mac2CookieSecret := zeroKey
    peers := [firstPeer, secondPeer]
    distinct := by
      have hne : firstPeer.publicKey ≠ secondPeer.publicKey := first_ne_second
      simp [hne] }

theorem selectHandshakePeer_gateway :
    gateway.selectHandshakePeer ⟨0x0A000008, 51820⟩ = .ok firstPeer := by
  refine WgDevice.selectHandshakePeer_eq mem_cons_self rfl ?_
  intro q hq hendpoint
  rcases mem_cons.mp hq with hfirst | hsecond
  · exact hfirst
  · rw [mem_singleton.mp hsecond] at hendpoint
    exact absurd hendpoint (by decide)

def gatewayEntry : WgPeer := WgPeer.new gateway.publicKey ⟨0x0A000002, 51820⟩

variable (privateKey : Key)

def initiate : Except WgFault (List (BitVec 8)) × WgSession :=
  (soloDevice privateKey gateway.privateKey ⟨0x0A000002, 51820⟩).initiateHandshake clear
    gatewayEntry { index := 7, seed := Vector.replicate 32 3 } 0

def initiationOf : List (BitVec 8) := (initiate privateKey).1.toOption.getD []

theorem openInitiation_gateway :
    (initiate privateKey).1 = .ok (initiationOf privateKey) ∧ ∃ opened : WgDevice.Opened,
    gateway.openInitiation clear (initiationOf privateKey) ⟨0x0A000008, 51820⟩ = .ok opened ∧
      opened.peer = firstPeer ∧
      opened.initiatorStatic = clear.publicKey (clamp privateKey) := by
  let t := transcript clear (soloDevice privateKey gateway.privateKey ⟨0x0A000002, 51820⟩)
    gatewayEntry (Vector.replicate 32 3) zeroKey
  have hkeyed := keyed_clear t
  obtain ⟨mac2, hcookie, hmade⟩ : ∃ mac2 : Tag,
      (WgDevice.cookieExpired gatewayEntry.session 0 = true → mac2 = zeroTag) ∧
      (initiate privateKey).1 = .ok (t.initiationBody clear 7 ++
        ((mac1 clear gateway.publicKey (t.initiationBody clear 7)).toList ++
          mac2.toList)) := initiateHandshake_message 0 rfl hkeyed
  have hzero : ∀ byte ∈ mac2.toList, byte = 0 := by
    rw [hcookie rfl]
    simp [zeroTag]
  have hindex : (7 : UInt32) ≠ 0 := by decide
  have hpsk : t.psk = firstPeer.presharedKey := rfl
  have hopened := openInitiation_eq hkeyed rfl hpsk (clear.x25519_comm _ _)
    (clear.x25519_comm _ _) hindex selectHandshakePeer_gateway hzero
  rw [initiationOf, hmade]
  exact ⟨rfl, _, hopened, rfl, rfl⟩

theorem processInitiation_gateway {opened : WgDevice.Opened} (draw : Draw)
    (h : gateway.openInitiation clear (initiationOf privateKey) ⟨0x0A000008, 51820⟩ = .ok opened) :
    ∃ (reply : List (BitVec 8)) (session : WgSession), session.established = true ∧
      gateway.processInitiation clear (initiationOf privateKey) ⟨0x0A000008, 51820⟩ draw =
        (.ok reply, gateway.setSession opened.peer.publicKey session) := by
  have hkey : ∀ (noise : NoiseState) (psk : Key),
      (noise.mixKeyAndHash clear psk).hasKey = true := fun _ _ => rfl
  rw [WgDevice.processInitiation, h]
  simp only [WgDevice.respond, encryptAndHash_of_hasKey (hkey _ _)]
  rw [if_neg (by simp)]
  exact ⟨_, _, rfl, rfl⟩

namespace WgDevice

theorem initiation_authenticates_iff_gateway :
    ∃ opened : Opened,
      gateway.openInitiation clear (initiationOf firstPrivate) ⟨0x0A000008, 51820⟩ =
        .ok opened ∧
      opened.initiatorStatic = opened.peer.publicKey := by
  obtain ⟨hmade, opened, hopened, -⟩ := openInitiation_gateway firstPrivate
  obtain ⟨reply, session, -, hprocess⟩ := processInitiation_gateway firstPrivate
    ⟨9, Vector.replicate 32 4⟩ hopened
  obtain ⟨opened, session, hopened, hselect, -, -, -, hsender⟩ :=
    initiation_authenticates_iff exact_clear hprocess
  refine ⟨opened, hopened, (hsender _ _ _ _ rfl rfl hmade).mpr ?_⟩
  rw [← ok.inj hselect]
  rfl

/-- An initiation by the second peer from the first peer's endpoint establishes the first peer's
session. -/
theorem initiation_establishes_other_peer :
    ∃ (opened : Opened) (session : WgSession) (reply : List (BitVec 8)),
      gateway.openInitiation clear (initiationOf secondPrivate) ⟨0x0A000008, 51820⟩ =
        .ok opened ∧
      gateway.processInitiation clear (initiationOf secondPrivate) ⟨0x0A000008, 51820⟩
          { index := 9, seed := Vector.replicate 32 4 } =
        (.ok reply, gateway.setSession opened.peer.publicKey session) ∧
      session.established = true ∧ opened.initiatorStatic ≠ opened.peer.publicKey := by
  obtain ⟨-, opened, hopened, hpeer, hstatic⟩ := openInitiation_gateway secondPrivate
  obtain ⟨reply, session, hestablished, hprocess⟩ :=
    processInitiation_gateway secondPrivate _ hopened
  refine ⟨opened, session, reply, hopened, hprocess, hestablished, ?_⟩
  rw [hstatic, hpeer]
  exact first_ne_second.symm

end WgDevice

end EchOS.Net.Wg
