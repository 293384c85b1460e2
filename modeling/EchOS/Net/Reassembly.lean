import EchOS.Lib.Disk
import EchOS.Lib.Run
import EchOS.Lib.Table

/-! Fragment reassembly of `net/ip.rs`: a buffer for each key, a mask of the blocks of eight bytes
that have arrived, and the length once the last fragment told it. -/

namespace EchOS.Net

open List

structure Ipv4Addr where
  toU32 : UInt32
  deriving DecidableEq

inductive IpProtocol
  | icmp | tcp | udp | unknown
  deriving DecidableEq

def IpProtocol.toU8 : IpProtocol → UInt8
  | .icmp => 1
  | .tcp => 6
  | .udp => 17
  | .unknown => 0

structure Ipv4Header where
  version : UInt8
  ihl : UInt8
  dscp : UInt8
  ecn : UInt8
  totalLength : UInt16
  identification : UInt16
  flags : UInt8
  fragmentOffset : UInt16
  ttl : UInt8
  protocol : IpProtocol
  checksum : UInt16
  src : Ipv4Addr
  dst : Ipv4Addr
  deriving DecidableEq

structure FragmentKey where
  srcIp : UInt32
  dstIp : UInt32
  identification : UInt16
  protocol : UInt8
  deriving DecidableEq

def Ipv4Header.fragmentKey (header : Ipv4Header) : FragmentKey where
  srcIp := header.src.toU32
  dstIp := header.dst.toU32
  identification := header.identification
  protocol := header.protocol.toU8

def Ipv4Header.mf (header : Ipv4Header) : Bool := header.flags &&& 0x01 != 0

def Ipv4Header.offsetBytes (header : Ipv4Header) : ℕ := header.fragmentOffset.toNat * 8

def bufferLen : ℕ := 65535

def maskLen : ℕ := 8192

structure FragmentEntry where
  buffer : Disk.Image
  receivedMask : ℕ → Bool
  totalLen : Option ℕ
  timestamp : UInt64

def FragmentEntry.new (now : UInt64) : FragmentEntry :=
  { buffer := fun _ => 0, receivedMask := fun _ => false, totalLen := none, timestamp := now }

/-- The entry with the bytes of a fragment copied in and its blocks marked; the end of the last
fragment, as a `u16`, is the length. -/
def FragmentEntry.receive (entry : FragmentEntry) (offsetBytes : ℕ) (mf : Bool)
    (payload : List (BitVec 8)) : FragmentEntry :=
  let stop := offsetBytes + payload.length
  let blockEnd := min ((stop + 7) / 8) maskLen
  { entry with
    buffer := Disk.write entry.buffer offsetBytes payload
    receivedMask := fun i =>
      decide (offsetBytes / 8 ≤ i ∧ i < blockEnd) || entry.receivedMask i
    totalLen := if mf then entry.totalLen else some (stop % 2 ^ 16) }

/-- The payload, once its length is known and all its blocks have arrived. -/
def FragmentEntry.assembled (entry : FragmentEntry) : Option (List (BitVec 8)) := do
  let total ← entry.totalLen
  if (List.range ((total + 7) / 8)).all entry.receivedMask then
    some (Disk.read entry.buffer 0 total)
  else none

abbrev FragmentTable := Table FragmentKey FragmentEntry

def FragmentTable.entry (table : FragmentTable) (key : FragmentKey) (now : UInt64) :
    FragmentEntry :=
  (table.lookup key).getD (.new now)

structure FragmentCall where
  now : UInt64
  header : Ipv4Header
  payload : List (BitVec 8)

/-- The entry is made first and stays also when the fragment does not fit. The checked additions
fail only for lengths beyond the buffer. -/
def reassembleFragment (table : FragmentTable) (call : FragmentCall) :
    Option (List (BitVec 8)) × FragmentTable :=
  let key := call.header.fragmentKey
  let entry := table.entry key call.now
  if call.header.offsetBytes + call.payload.length > bufferLen then (none, table.insert key entry)
  else
    let entry := entry.receive call.header.offsetBytes call.header.mf call.payload
    match entry.assembled with
    | some payload => (some payload, table.erase key)
    | none => (none, table.insert key entry)

def FragmentTable.step (table : FragmentTable) (call : FragmentCall) : FragmentTable :=
  (reassembleFragment table call).2

/-- The payload cut into fragments: `bound i` is where fragment `i` starts, and all cuts are at
multiples of eight bytes. -/
structure Cut (payload : List (BitVec 8)) where
  count : ℕ
  bound : ℕ → ℕ
  two_le : 2 ≤ count
  bound_zero : bound 0 = 0
  bound_count : bound count = payload.length
  rising : ∀ i < count, bound i < bound (i + 1)
  aligned : ∀ i < count, 8 ∣ bound i

namespace Cut

variable {payload : List (BitVec 8)} (cut : Cut payload) {i j k : ℕ}

def data (i : ℕ) : List (BitVec 8) :=
  (payload.drop (cut.bound i)).take (cut.bound (i + 1) - cut.bound i)

/-- The call delivers fragment `i` of the payload under the key. -/
structure IsFragment (key : FragmentKey) (i : ℕ) (call : FragmentCall) : Prop where
  lt : i < cut.count
  key : call.header.fragmentKey = key
  offset : call.header.offsetBytes = cut.bound i
  mf : call.header.mf = decide (i + 1 < cut.count)
  payload : call.payload = cut.data i

def Delivered (key : FragmentKey) (calls : List FragmentCall) (i : ℕ) : Prop :=
  ∃ call ∈ calls, cut.IsFragment key i call

theorem bound_le (hij : i ≤ j) (hj : j ≤ cut.count) : cut.bound i ≤ cut.bound j := by
  induction j, hij using Nat.le_induction with
  | base => exact Nat.le_refl _
  | succ j hij ih =>
    have hstep := cut.rising j (by omega)
    omega

theorem bound_lt (hij : i < j) (hj : j ≤ cut.count) : cut.bound i < cut.bound j := by
  have hstep := cut.rising i (by omega)
  have hrest := cut.bound_le (show i + 1 ≤ j by omega) hj
  omega

theorem bound_le_length (hi : i ≤ cut.count) : cut.bound i ≤ payload.length := by
  have hle := cut.bound_le hi (Nat.le_refl _)
  rwa [cut.bound_count] at hle

theorem length_data (hi : i < cut.count) :
    (cut.data i).length = cut.bound (i + 1) - cut.bound i := by
  have hle := cut.bound_le_length (show i + 1 ≤ cut.count by omega)
  simp only [data, length_take, length_drop]
  omega

theorem end_data (hi : i < cut.count) : cut.bound i + (cut.data i).length = cut.bound (i + 1) := by
  have hlt := cut.rising i hi
  rw [cut.length_data hi]
  omega

theorem getD_data (hi : i < cut.count) (hlo : cut.bound i ≤ k)
    (hhi : k < cut.bound (i + 1)) : (cut.data i).getD (k - cut.bound i) 0 = payload.getD k 0 := by
  have hle := cut.bound_le_length (show i + 1 ≤ cut.count by omega)
  have hk : k < payload.length := by omega
  have hin : k - cut.bound i < (cut.data i).length := by
    rw [cut.length_data hi]
    omega
  rw [getD_eq_getElem _ _ hin, getD_eq_getElem _ _ hk]
  simp only [data, getElem_take, getElem_drop]
  congr 1
  omega

theorem block_unique {b : ℕ} (hi : i < cut.count) (hj : j < cut.count)
    (hi1 : cut.bound i / 8 ≤ b) (hi2 : b < (cut.bound (i + 1) + 7) / 8)
    (hj1 : cut.bound j / 8 ≤ b) (hj2 : b < (cut.bound (j + 1) + 7) / 8) : i = j := by
  -- The earlier of two fragments is not the last, so it ends on a block boundary.
  have hearlier : ∀ {i j : ℕ}, i < j → j < cut.count →
      (cut.bound (i + 1) + 7) / 8 ≤ cut.bound j / 8 := by
    intro i j hij hj
    have hle := cut.bound_le (show i + 1 ≤ j by omega) (by omega)
    obtain ⟨c, hc⟩ := cut.aligned (i + 1) (by omega)
    omega
  rcases Nat.lt_trichotomy i j with hlt | heq | hlt
  · have := hearlier hlt hj
    omega
  · exact heq
  · have := hearlier hlt hi
    omega

theorem exists_fragment (hk : k < payload.length) :
    ∃ i < cut.count, cut.bound i ≤ k ∧ k < cut.bound (i + 1) := by
  have hsearch : ∀ n ≤ cut.count, k < cut.bound n →
      ∃ i < cut.count, cut.bound i ≤ k ∧ k < cut.bound (i + 1) := by
    intro n
    induction n with
    | zero =>
      intro _ hlt
      rw [cut.bound_zero] at hlt
      omega
    | succ n ih =>
      intro hn hlt
      by_cases hbelow : k < cut.bound n
      · exact ih (by omega) hbelow
      · exact ⟨n, by omega, by omega, hlt⟩
  apply hsearch cut.count (Nat.le_refl _)
  rwa [cut.bound_count]

end Cut

end EchOS.Net
