import Mathlib.Data.List.Induction
import Mathlib.Data.Nat.Bitwise
import Mathlib.Tactic.Ring

/-! Numbers written as lists of bits, with the low or the high bit first, and bytes as bits. -/

namespace Bits

open List

/-- The number whose low bit comes first. -/
def lsb : List Bool → ℕ
  | [] => 0
  | b :: bs => b.toNat + 2 * lsb bs

variable (bs : List Bool)

/-- The number whose high bit comes first. -/
def msb : ℕ := bs.foldl (fun v b => 2 * v + b.toNat) 0

def toLsb : ℕ → ℕ → List Bool
  | 0, _ => []
  | width + 1, v => v.testBit 0 :: toLsb width (v / 2)

def toMsb (width v : ℕ) : List Bool := (toLsb width v).reverse

@[simp] theorem length_toLsb (width v : ℕ) : (toLsb width v).length = width := by
  induction width generalizing v with
  | zero => rfl
  | succ width ih => simp [toLsb, ih]

@[simp] theorem length_toMsb (width v : ℕ) : (toMsb width v).length = width := by
  simp [toMsb]

theorem toNat_testBit_zero (v : ℕ) : (v.testBit 0).toNat = v % 2 := by
  rcases Nat.mod_two_eq_zero_or_one v with h | h <;> simp [Nat.testBit_zero, h]

variable {i v width : ℕ} (data : List UInt8)

theorem lsb_toLsb (h : v < 2 ^ width) : lsb (toLsb width v) = v := by
  induction width generalizing v with
  | zero =>
    have hv : v = 0 := by simpa using h
    exact hv.symm
  | succ width ih =>
    have hhalf : v / 2 < 2 ^ width := by
      omega
    rw [toLsb, lsb, ih hhalf, toNat_testBit_zero]
    omega

theorem foldl_msb (v : ℕ) :
    bs.foldl (fun v b => 2 * v + b.toNat) v = v * 2 ^ bs.length + msb bs := by
  unfold msb
  induction bs generalizing v with
  | nil => simp
  | cons b bs ih =>
    rw [foldl_cons, foldl_cons, ih, ih (2 * 0 + b.toNat), length_cons]
    ring

theorem msb_append (bs cs : List Bool) : msb (bs ++ cs) = msb bs * 2 ^ cs.length + msb cs := by
  rw [msb, foldl_append]
  exact foldl_msb cs (msb bs)

theorem msb_concat (b : Bool) : msb (bs ++ [b]) = 2 * msb bs + b.toNat := by
  simp [msb, mul_comm]

theorem msb_lt : msb bs < 2 ^ bs.length := by
  induction bs using reverseRecOn with
  | nil => simp [msb]
  | append_singleton bs b ih =>
    rw [msb_concat, length_append, length_singleton]
    have hb := Bool.toNat_lt b
    omega

theorem msb_reverse : msb bs.reverse = lsb bs := by
  induction bs with
  | nil => rfl
  | cons b bs ih =>
    rw [reverse_cons, msb_concat, ih]
    exact Nat.add_comm _ _

theorem msb_toMsb (h : v < 2 ^ width) : msb (toMsb width v) = v := by
  rw [toMsb, msb_reverse, lsb_toLsb h]

theorem msb_take (n : ℕ) : msb (bs.take n) = msb bs / 2 ^ (bs.length - n) := by
  have hsplit := msb_append (bs.take n) (bs.drop n)
  rw [take_append_drop, length_drop] at hsplit
  have hrest := msb_lt (bs.drop n)
  rw [length_drop] at hrest
  rw [hsplit, Nat.mul_comm, Nat.mul_add_div (Nat.two_pow_pos _),
    Nat.div_eq_of_lt hrest, Nat.add_zero]

theorem lsb_lt : lsb bs < 2 ^ bs.length := by
  rw [← msb_reverse, ← length_reverse]
  exact msb_lt bs.reverse

theorem lsb_append (bs cs : List Bool) : lsb (bs ++ cs) = lsb bs + 2 ^ bs.length * lsb cs := by
  rw [← msb_reverse, reverse_append, msb_append, msb_reverse, msb_reverse, length_reverse]
  ring

theorem testBit_lsb (i : ℕ) : (lsb bs).testBit i = bs.getD i false := by
  induction bs generalizing i with
  | nil => simp [lsb]
  | cons b bs ih =>
    cases i with
    | zero =>
      cases b <;> simp [lsb, Nat.testBit_zero]
    | succ i =>
      have hhalf : (b.toNat + 2 * lsb bs) / 2 = lsb bs := by
        have hb := Bool.toNat_lt b
        omega
      rw [lsb, Nat.testBit_succ, hhalf, ih]
      rfl

theorem setBit_eq (h : v < 2 ^ i) (b : Bool) :
    (if b then v ||| 1 <<< i else v) = v + 2 ^ i * b.toNat := by
  cases b with
  | false => simp
  | true =>
    have hor := Nat.two_pow_add_eq_or_of_lt h 1
    rw [Nat.mul_one] at hor
    rw [if_pos rfl, Nat.one_shiftLeft, Nat.or_comm, ← hor, Bool.toNat_true]
    ring

theorem lsb_concat (b : Bool) :
    lsb (bs ++ [b]) = if b then lsb bs ||| 1 <<< bs.length else lsb bs := by
  rw [setBit_eq (lsb_lt bs), lsb_append]
  simp [lsb]

theorem getElem?_toLsb (h : i < width) (v : ℕ) : (toLsb width v)[i]? = some (v.testBit i) := by
  induction width generalizing i v with
  | zero => exact absurd h (Nat.not_lt_zero i)
  | succ width ih =>
    cases i with
    | zero => rfl
    | succ i =>
      rw [toLsb, List.getElem?_cons_succ, ih (Nat.lt_of_succ_lt_succ h), Nat.testBit_succ]

theorem toLsb_mod (width v : ℕ) : toLsb width (v % 2 ^ width) = toLsb width v := by
  apply ext_getElem?
  intro i
  by_cases hi : i < width
  · rw [getElem?_toLsb hi, getElem?_toLsb hi]
    simp [hi]
  · rw [List.getElem?_eq_none (by simp; omega), List.getElem?_eq_none (by simp; omega)]

theorem toLsb_add (width width' v : ℕ) :
    toLsb (width + width') v = toLsb width v ++ toLsb width' (v / 2 ^ width) := by
  induction width generalizing v with
  | zero => simp [toLsb]
  | succ width ih =>
    rw [Nat.succ_add, toLsb, ih, Nat.div_div_eq_div_mul, Nat.mul_comm 2]
    rfl

def ofBytes (data : List UInt8) : List Bool := data.flatMap fun byte => toLsb 8 byte.toNat

@[simp] theorem ofBytes_nil : ofBytes [] = [] := rfl

@[simp] theorem ofBytes_cons (byte : UInt8) (data : List UInt8) :
    ofBytes (byte :: data) = toLsb 8 byte.toNat ++ ofBytes data := rfl

@[simp] theorem ofBytes_append (data' : List UInt8) :
    ofBytes (data ++ data') = ofBytes data ++ ofBytes data' := flatMap_append

@[simp] theorem length_ofBytes : (ofBytes data).length = 8 * data.length := by
  induction data with
  | nil => rfl
  | cons byte data ih =>
    rw [ofBytes_cons, length_append, length_toLsb, ih, length_cons]
    ring

theorem drop_ofBytes (n : ℕ) : (ofBytes data).drop (8 * n) = ofBytes (data.drop n) := by
  induction data generalizing n with
  | nil => simp
  | cons byte data ih =>
    cases n with
    | zero => rfl
    | succ n =>
      have hcut : (toLsb 8 byte.toNat ++ ofBytes data).drop 8 = ofBytes data :=
        drop_left' (length_toLsb 8 _)
      rw [drop_succ_cons, ← ih, ofBytes_cons, Nat.mul_succ, Nat.add_comm, ← drop_drop,
        hcut]

theorem getElem?_ofBytes (n : ℕ) (h : i < 8) :
    (ofBytes data)[8 * n + i]? = data[n]?.map fun byte => byte.toNat.testBit i := by
  have hdrop : (ofBytes data)[8 * n + i]? = (ofBytes (data.drop n))[i]? := by
    rw [← drop_ofBytes, List.getElem?_drop]
  rw [hdrop]
  cases hrest : data.drop n with
  | nil =>
    have hout : data.length ≤ n := drop_eq_nil_iff.mp hrest
    rw [List.getElem?_eq_none hout]
    rfl
  | cons byte rest =>
    have hget : data[n]? = some byte := by
      rw [← Nat.add_zero n, ← List.getElem?_drop, hrest]
      rfl
    rw [hget, ofBytes_cons, List.getElem?_append_left (by simpa using h), getElem?_toLsb h]
    rfl

theorem ofBytes_injective {data data' : List UInt8} (h : ofBytes data = ofBytes data') :
    data = data' := by
  induction data generalizing data' with
  | nil =>
    have hlen := congrArg length h
    simp only [length_ofBytes, length_nil] at hlen
    exact (eq_nil_of_length_eq_zero (by omega)).symm
  | cons byte data ih =>
    cases data' with
    | nil =>
      have hlen := congrArg length h
      simp only [length_ofBytes, length_nil, length_cons] at hlen
      omega
    | cons byte' data' =>
      obtain ⟨hhead, htail⟩ := append_inj h (by simp)
      have hbyte := congrArg lsb hhead
      rw [lsb_toLsb byte.toNat_lt, lsb_toLsb byte'.toNat_lt] at hbyte
      rw [UInt8.toNat_inj.mp hbyte, ih htail]

theorem ofBytes_eq_append {data bytes : List UInt8} {more : List Bool}
    (h : ofBytes data = ofBytes bytes ++ more) :
    ∃ tail, data = bytes ++ tail ∧ more = ofBytes tail := by
  have hlength := congrArg length h
  rw [length_append, length_ofBytes, length_ofBytes] at hlength
  have hsplit : ofBytes (data.take bytes.length) ++ ofBytes (data.drop bytes.length) =
      ofBytes bytes ++ more := by
    rw [← ofBytes_append, take_append_drop, h]
  obtain ⟨hhead, htail⟩ := append_inj hsplit (by
    rw [length_ofBytes, length_ofBytes, length_take]
    omega)
  have htake := ofBytes_injective hhead
  refine ⟨data.drop bytes.length, ?_, htail.symm⟩
  calc data = data.take bytes.length ++ data.drop bytes.length :=
        (take_append_drop _ _).symm
    _ = bytes ++ data.drop bytes.length := by rw [htake]

theorem toLsb_sixteen (v : ℕ) : toLsb 16 v = ofBytes [UInt8.ofNat v, UInt8.ofNat (v / 2 ^ 8)] := by
  have hbyte : ∀ n : ℕ, toLsb 8 (UInt8.ofNat n).toNat = toLsb 8 n := fun n => toLsb_mod 8 n
  rw [ofBytes_cons, ofBytes_cons, ofBytes_nil, hbyte, hbyte, append_nil, ← toLsb_add]

end Bits
