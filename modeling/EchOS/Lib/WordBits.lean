import Mathlib.Algebra.Order.BigOperators.Group.Finset

/-! Bits kept in a list of bytes or other machine words of one width, least significant bit of a
word first: reading, setting and clearing one bit, full words, and the number of set bits. -/

namespace WordBits

open BitVec Finset

variable {w : ℕ}

def mask (w i : ℕ) : BitVec w := 1#w <<< (i % w)

/-- The bit with a given index. A bit past the end reads as clear. -/
def bit (words : List (BitVec w)) (i : ℕ) : Bool := (words.getD (i / w) 0).getLsbD (i % w)

def set (words : List (BitVec w)) (i : ℕ) : List (BitVec w) :=
  words.set (i / w) (words.getD (i / w) 0 ||| mask w i)

def clear (words : List (BitVec w)) (i : ℕ) : List (BitVec w) :=
  words.set (i / w) (words.getD (i / w) 0 &&& ~~~mask w i)

def setCount (words : List (BitVec w)) (n : ℕ) : ℕ :=
  ((Finset.range n).filter fun i => bit words i = true).card

def clearCount (words : List (BitVec w)) (n : ℕ) : ℕ :=
  ((Finset.range n).filter fun i => bit words i = false).card

section Bits

variable {words words' : List (BitVec w)} {i j k n : ℕ}

theorem getLsbD_mask (hw : 0 < w) (i j : ℕ) :
    (mask w i).getLsbD (j % w) = decide (i % w = j % w) := by
  have hlt : i % w < w := Nat.mod_lt i hw
  rw [mask, ← twoPow_eq]
  simp [hlt]

theorem and_mask_eq_zero (hw : 0 < w) :
    words.getD (i / w) 0 &&& mask w i = 0 ↔ bit words i = false := by
  have hlt : i % w < w := Nat.mod_lt i hw
  rw [mask, ← twoPow_eq, and_twoPow, bit]
  constructor
  · intro h
    by_contra hset
    rw [if_pos (by simpa using hset)] at h
    have hbit := congrArg (fun word => word.getLsbD (i % w)) h
    simp [hlt] at hbit
  · intro h
    rw [h]
    rfl

@[simp] theorem length_set (words : List (BitVec w)) (i : ℕ) :
    (set words i).length = words.length := List.length_set

@[simp] theorem length_clear (words : List (BitVec w)) (i : ℕ) :
    (clear words i).length = words.length := List.length_set

section Word

variable {word : BitVec w}

theorem getD_set_same (hword : i / w < words.length) (hsame : i / w = j / w) :
    (words.set (i / w) word).getD (j / w) 0 = word := by
  rw [← hsame, List.getD_eq_getElem?_getD, List.getElem?_set_self hword]
  rfl

theorem getD_set_other (hother : i / w ≠ j / w) :
    (words.set (i / w) word).getD (j / w) 0 = words.getD (j / w) 0 := by
  rw [List.getD_eq_getElem?_getD, List.getElem?_set_ne hother, ← List.getD_eq_getElem?_getD]

end Word

theorem mod_eq_iff (hsame : i / w = j / w) : i % w = j % w ↔ j = i := by
  constructor
  · intro hmod
    rw [← Nat.div_add_mod i w, ← Nat.div_add_mod j w, hsame, hmod]
  · rintro rfl
    rfl

theorem bit_set (h : i < w * words.length) :
    bit (set words i) j = (decide (j = i) || bit words j) := by
  have hw : 0 < w := Nat.pos_of_mul_pos_right (Nat.zero_lt_of_lt h)
  have hword : i / w < words.length := Nat.div_lt_of_lt_mul h
  unfold bit set
  by_cases hsame : i / w = j / w
  · rw [getD_set_same hword hsame, getLsbD_or, getLsbD_mask hw, Bool.or_comm, hsame]
    simp only [mod_eq_iff hsame]
  · have hother : j ≠ i := fun heq => hsame (by rw [heq])
    rw [getD_set_other hsame]
    simp only [hother, decide_false, Bool.false_or]

theorem bit_clear (h : i < w * words.length) :
    bit (clear words i) j = (!decide (j = i) && bit words j) := by
  have hw : 0 < w := Nat.pos_of_mul_pos_right (Nat.zero_lt_of_lt h)
  have hword : i / w < words.length := Nat.div_lt_of_lt_mul h
  have hlt : j % w < w := Nat.mod_lt j hw
  unfold bit clear
  by_cases hsame : i / w = j / w
  · rw [getD_set_same hword hsame, getLsbD_and, getLsbD_not, getLsbD_mask hw,
      Bool.and_comm, hsame]
    simp only [mod_eq_iff hsame, hlt, decide_true, Bool.true_and]
  · have hother : j ≠ i := fun heq => hsame (by rw [heq])
    rw [getD_set_other hsame]
    simp only [hother, decide_false, Bool.not_false, Bool.true_and]

theorem bit_replicate_allOnes (h : i < w * n) :
    bit (List.replicate n (BitVec.allOnes w)) i = true := by
  have hw : 0 < w := Nat.pos_of_mul_pos_right (Nat.zero_lt_of_lt h)
  have hword : i / w < n := Nat.div_lt_of_lt_mul h
  rw [bit, List.getD_eq_getElem?_getD, List.getElem?_replicate_of_lt hword, Option.getD_some,
    getLsbD_allOnes]
  exact decide_eq_true (Nat.mod_lt i hw)

theorem getD_ne_allOnes (hw : 0 < w) (h : bit words i = false) :
    words.getD (i / w) 0 ≠ BitVec.allOnes w := by
  intro hfull
  rw [bit, hfull, getLsbD_allOnes, decide_eq_false_iff_not] at h
  exact h (Nat.mod_lt i hw)

end Bits

section Counting

variable {words words' : List (BitVec w)} {i n : ℕ}

theorem setCount_eq (h : ∀ i < n, bit words i = true) : setCount words n = n := by
  have hall := filter_true_of_mem fun i hi => h i (mem_range.mp hi)
  rw [setCount, hall, card_range]

theorem setCount_lt (hi : i < n) (hclear : bit words i = false) : setCount words n < n := by
  have hsub : (range n).filter (fun i => bit words i = true) ⊂ range n :=
    filter_ssubset.mpr ⟨i, mem_range.mpr hi, by simp [hclear]⟩
  have hlt := card_lt_card hsub
  rwa [card_range] at hlt

theorem setCount_of_cleared (hi : i < n) (hset : bit words i = true)
    (hbits : ∀ j, bit words' j = (!decide (j = i) && bit words j)) :
    setCount words' n + 1 = setCount words n := by
  have herase : (range n).filter (fun j => bit words' j = true)
      = ((range n).filter fun j => bit words j = true).erase i := by
    ext j
    simp only [mem_filter, mem_erase, hbits, Bool.and_eq_true, Bool.not_eq_true',
      decide_eq_false_iff_not]
    tauto
  have hmem : i ∈ (range n).filter fun j => bit words j = true :=
    mem_filter.mpr ⟨mem_range.mpr hi, hset⟩
  rw [setCount, herase, card_erase_add_one hmem]
  rfl

theorem setCount_of_marked (hi : i < n) (hclear : bit words i = false)
    (hbits : ∀ j, bit words' j = (decide (j = i) || bit words j)) :
    setCount words' n = setCount words n + 1 := by
  have hset : bit words' i = true := by rw [hbits, decide_eq_true rfl, Bool.true_or]
  refine (setCount_of_cleared hi hset fun j => ?_).symm
  rw [hbits]
  by_cases hj : j = i
  · simp [hj, hclear]
  · simp [hj]

theorem clearCount_congr (h : ∀ j, j < n → bit words j = bit words' j) :
    clearCount words n = clearCount words' n := by
  unfold clearCount
  congr 1
  apply filter_congr
  intro j hj
  rw [h j (mem_range.mp hj)]

theorem clearCount_le (words : List (BitVec w)) (n : ℕ) : clearCount words n ≤ n := by
  have hle := card_filter_le (range n) fun i => bit words i = false
  rwa [card_range] at hle

theorem clearCount_pos (hi : i < n) (hclear : bit words i = false) : 0 < clearCount words n :=
  card_pos.mpr ⟨i, mem_filter.mpr ⟨mem_range.mpr hi, hclear⟩⟩

theorem clearCount_of_marked (hi : i < n) (hclear : bit words i = false)
    (hbits : ∀ j, bit words' j = (decide (j = i) || bit words j)) :
    clearCount words' n + 1 = clearCount words n := by
  have herase : (range n).filter (fun j => bit words' j = false)
      = ((range n).filter fun j => bit words j = false).erase i := by
    ext j
    simp only [mem_filter, mem_erase, hbits, Bool.or_eq_false_iff,
      decide_eq_false_iff_not]
    tauto
  have hmem : i ∈ (range n).filter fun j => bit words j = false :=
    mem_filter.mpr ⟨mem_range.mpr hi, hclear⟩
  rw [clearCount, herase, card_erase_add_one hmem]
  rfl

end Counting

end WordBits
