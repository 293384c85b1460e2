import Mathlib.Algebra.BigOperators.Group.List.Basic
import Mathlib.Data.List.Count
import EchOS.Lib.Bits

/-! Prefix codes given by the lengths of their words. Words of one length are consecutive
numbers in the order of their symbols, and come after the shorter ones. A length of zero means
that the symbol has no word. -/

namespace CanonicalCode

open List

/-- The number at which the words of a length begin: what the shorter words leave. -/
def first (lengths : List ℕ) (l : ℕ) : ℕ :=
  (lengths.map fun k => if 0 < k ∧ k < l then 2 ^ (l - k) else 0).sum

/-- The symbols before a given one with words of the same length. -/
def rank (lengths : List ℕ) (s : ℕ) : ℕ := (lengths.take s).count (lengths.getD s 0)

def value (lengths : List ℕ) (s : ℕ) : ℕ := first lengths (lengths.getD s 0) + rank lengths s

def word (lengths : List ℕ) (s : ℕ) : List Bool :=
  Bits.toMsb (lengths.getD s 0) (value lengths s)

def Coded (lengths : List ℕ) (s : ℕ) : Prop := 0 < lengths.getD s 0

instance (lengths : List ℕ) (s : ℕ) : Decidable (Coded lengths s) :=
  inferInstanceAs (Decidable (0 < lengths.getD s 0))

structure Fits (max : ℕ) (lengths : List ℕ) : Prop where
  le_max : ∀ k ∈ lengths, k ≤ max
  kraft : (lengths.map fun k => if 0 < k then 2 ^ (max - k) else 0).sum ≤ 2 ^ max

instance (max : ℕ) (lengths : List ℕ) : Decidable (Fits max lengths) :=
  decidable_of_iff ((∀ k ∈ lengths, k ≤ max) ∧
      (lengths.map fun k => if 0 < k then 2 ^ (max - k) else 0).sum ≤ 2 ^ max)
    ⟨fun h => ⟨h.1, h.2⟩, fun h => ⟨h.1, h.2⟩⟩

variable {lengths : List ℕ} {max s s' n l : ℕ}

theorem first_zero (lengths : List ℕ) : first lengths 0 = 0 := by
  induction lengths with
  | nil => rfl
  | cons k lengths => simp [first]

theorem first_one (lengths : List ℕ) : first lengths 1 = 0 := by
  have hnone : ∀ k : ℕ, ¬ (0 < k ∧ k < 1) := by
    intro k
    omega
  simp only [first, hnone, if_false]
  simp

theorem first_succ (lengths : List ℕ) (hl : 0 < l) :
    first lengths (l + 1) = 2 * (first lengths l + lengths.count l) := by
  induction lengths with
  | nil => rfl
  | cons k lengths ih =>
    simp only [first, map_cons, sum_cons, count_cons] at ih ⊢
    rw [ih]
    rcases Nat.lt_trichotomy k l with hk | rfl | hk
    · have hpow : 2 ^ (l + 1 - k) = 2 * 2 ^ (l - k) := by
        rw [Nat.succ_sub hk.le, pow_succ, Nat.mul_comm]
      by_cases hpos : 0 < k
      · simp [hpos, hk, hk.ne, Nat.lt_succ_of_lt hk, hpow]
        ring
      · simp [hpos, hk.ne]
    · simp [hl]
      ring
    · have hge : ¬ k < l + 1 := by omega
      simp [hk.not_gt, hk.ne', hge]

/-- The words of a length and the shorter ones, cut to a greater length, leave the words of that
length where they begin. -/
theorem first_le (hn : 0 < n) (hnl : n < l) :
    (first lengths n + lengths.count n) * 2 ^ (l - n) ≤ first lengths l := by
  induction l, hnl using Nat.le_induction with
  | base =>
    rw [first_succ lengths hn, Nat.succ_eq_add_one, Nat.add_sub_cancel_left]
    omega
  | succ l hl ih =>
    have hl' : n < l := hl
    rw [first_succ lengths (by omega), Nat.succ_sub hl'.le]
    calc (first lengths n + lengths.count n) * (2 ^ (l - n) * 2)
        = 2 * ((first lengths n + lengths.count n) * 2 ^ (l - n)) := by ring
      _ ≤ 2 * (first lengths l + lengths.count l) :=
        Nat.mul_le_mul_left 2 (ih.trans (Nat.le_add_right _ _))

theorem first_add_count_le (h : Fits max lengths) (hl : 0 < l) (hmax : l ≤ max) :
    first lengths l + lengths.count l ≤ 2 ^ l := by
  have hsum : (first lengths l + lengths.count l) * 2 ^ (max - l) ≤
      (lengths.map fun k => if 0 < k then 2 ^ (max - k) else 0).sum := by
    clear h
    induction lengths with
    | nil => simp [first]
    | cons k lengths ih =>
      simp only [first, map_cons, sum_cons, count_cons] at ih ⊢
      have hone : ((if 0 < k ∧ k < l then 2 ^ (l - k) else 0) + if (k == l) = true then 1 else 0) *
          2 ^ (max - l) ≤ if 0 < k then 2 ^ (max - k) else 0 := by
        rcases Nat.lt_trichotomy k l with hk | rfl | hk
        · have hpow : 2 ^ (l - k) * 2 ^ (max - l) = 2 ^ (max - k) := by
            rw [← pow_add]
            congr 1
            omega
          by_cases hpos : 0 < k
          · simp [hpos, hk, hk.ne, hpow]
          · simp [hpos, hk.ne]
        · simp [hl]
        · simp [hk.not_gt, hk.ne']
      calc _ = ((if 0 < k ∧ k < l then 2 ^ (l - k) else 0) + if (k == l) = true then 1 else 0) *
                2 ^ (max - l) +
              ((lengths.map fun k => if 0 < k ∧ k < l then 2 ^ (l - k) else 0).sum +
                lengths.count l) * 2 ^ (max - l) := by ring
        _ ≤ _ := Nat.add_le_add hone ih
  have hpow : 2 ^ max = 2 ^ l * 2 ^ (max - l) := by
    rw [← pow_add]
    congr 1
    omega
  have hall := hsum.trans h.kraft
  rw [hpow] at hall
  exact Nat.le_of_mul_le_mul_right hall (Nat.two_pow_pos _)

theorem Fits.mono (h : Fits max lengths) {max' : ℕ} (hle : max ≤ max') : Fits max' lengths := by
  have hscale : (lengths.map fun k => if 0 < k then 2 ^ (max' - k) else 0).sum =
      (lengths.map fun k => if 0 < k then 2 ^ (max - k) else 0).sum * 2 ^ (max' - max) := by
    have hmax := h.le_max
    clear h
    induction lengths with
    | nil => simp
    | cons k lengths ih =>
      obtain ⟨hk, hrest⟩ := forall_mem_cons.mp hmax
      have hpow : 2 ^ (max' - k) = 2 ^ (max - k) * 2 ^ (max' - max) := by
        rw [← pow_add]
        congr 1
        omega
      rw [map_cons, map_cons, sum_cons, sum_cons, ih hrest, Nat.add_mul]
      split_ifs
      · rw [hpow]
      · simp
  constructor
  · exact fun k hk => (h.le_max k hk).trans hle
  · rw [hscale, ← Nat.sub_add_cancel hle, pow_add, Nat.add_sub_cancel, Nat.mul_comm (2 ^ _)]
    exact Nat.mul_le_mul_right _ h.kraft

section

variable (h : Coded lengths s)
include h

theorem Coded.lt_length : s < lengths.length := by
  by_contra hs
  unfold Coded at h
  rw [getD_eq_default _ _ (Nat.le_of_not_lt hs)] at h
  exact absurd h (Nat.lt_irrefl 0)

theorem Coded.mem : lengths.getD s 0 ∈ lengths := by
  rw [getD_eq_getElem lengths 0 h.lt_length]
  exact getElem_mem h.lt_length

theorem count_take_succ : (lengths.take (s + 1)).count (lengths.getD s 0) = rank lengths s + 1 := by
  have hs := h.lt_length
  unfold rank
  rw [getD_eq_getElem lengths 0 hs, take_succ_eq_append_getElem hs, count_append,
    count_singleton_self]

theorem rank_lt_of_lt (hlt : s < s') (heq : lengths.getD s 0 = lengths.getD s' 0) :
    rank lengths s < rank lengths s' := by
  have hnext := count_take_succ h
  have hmono : (lengths.take (s + 1)).count (lengths.getD s 0) ≤ rank lengths s' := by
    unfold rank
    rw [← heq]
    exact (take_sublist_take_left hlt).count_le _
  omega

theorem rank_lt_count : rank lengths s < lengths.count (lengths.getD s 0) := by
  have hnext := count_take_succ h
  have hmono := (take_sublist (s + 1) lengths).count_le (lengths.getD s 0)
  omega

end

theorem value_lt (h : Fits max lengths) (hs : Coded lengths s) :
    value lengths s < 2 ^ lengths.getD s 0 := by
  have hroom := first_add_count_le h hs (h.le_max _ hs.mem)
  have hrank := rank_lt_count hs
  unfold value
  omega

theorem value_inj (hs : Coded lengths s) (hs' : Coded lengths s')
    (hlen : lengths.getD s 0 = lengths.getD s' 0) (heq : value lengths s = value lengths s') :
    s = s' := by
  unfold value at heq
  rw [hlen] at heq
  have hrank := Nat.add_left_cancel heq
  rcases Nat.lt_trichotomy s s' with hlt | rfl | hlt
  · exact absurd hrank (rank_lt_of_lt hs hlt hlen).ne
  · rfl
  · exact absurd hrank (rank_lt_of_lt hs' hlt hlen.symm).ne'

theorem value_div_ne (hs' : Coded lengths s') (hlt : lengths.getD s' 0 < lengths.getD s 0) :
    value lengths s / 2 ^ (lengths.getD s 0 - lengths.getD s' 0) ≠ value lengths s' := by
  have hbegin := @first_le lengths _ _ hs' hlt
  have hrank := rank_lt_count hs'
  have hle : value lengths s' + 1 ≤
      value lengths s / 2 ^ (lengths.getD s 0 - lengths.getD s' 0) := by
    rw [Nat.le_div_iff_mul_le (Nat.two_pow_pos _)]
    calc (value lengths s' + 1) * 2 ^ (lengths.getD s 0 - lengths.getD s' 0)
        ≤ (first lengths (lengths.getD s' 0) + lengths.count (lengths.getD s' 0)) *
            2 ^ (lengths.getD s 0 - lengths.getD s' 0) := by
          apply Nat.mul_le_mul_right
          unfold value
          omega
      _ ≤ first lengths (lengths.getD s 0) := hbegin
      _ ≤ value lengths s := Nat.le_add_right _ _
  omega

@[simp] theorem length_word (lengths : List ℕ) (s : ℕ) :
    (word lengths s).length = lengths.getD s 0 := Bits.length_toMsb _ _

theorem msb_word (h : Fits max lengths) (hs : Coded lengths s) :
    Bits.msb (word lengths s) = value lengths s :=
  Bits.msb_toMsb (value_lt h hs)

theorem eq_of_prefix (h : Fits max lengths) (hs : Coded lengths s) (hs' : Coded lengths s')
    {pre : List Bool} (hpre : pre <+: word lengths s) (hlen : lengths.getD s' 0 = pre.length)
    (hvalue : value lengths s' = Bits.msb pre) : s' = s := by
  have hle := hpre.length_le
  rw [prefix_iff_eq_take.mp hpre, Bits.msb_take, msb_word h hs, length_word, ← hlen] at hvalue
  rw [length_word, ← hlen] at hle
  rcases hle.lt_or_eq with hlt | heq
  · exact absurd hvalue.symm (value_div_ne hs' hlt)
  · rw [heq, Nat.sub_self, pow_zero, Nat.div_one] at hvalue
    exact value_inj hs' hs heq hvalue

end CanonicalCode
