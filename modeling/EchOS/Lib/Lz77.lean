import Mathlib.Algebra.GroupWithZero.Nat
import Mathlib.Data.List.Basic
import Mathlib.Data.List.GetD
import Mathlib.Logic.Function.Iterate

/-! Literals and references back into the output, and what they stand for. -/

namespace Lz77

open List

variable {α : Type*} [Inhabited α]

inductive Token (α : Type*)
  | literal (a : α)
  | copy (length distance : ℕ)
  deriving DecidableEq

variable (out : List α) (token : Token α)

/-- The elements a reference stands for: the last `distance` ones, over and over. -/
def copied (length distance : ℕ) : List α :=
  (List.range length).map fun i => out.getD (out.length - distance + i % distance) default

def append : Token α → List α
  | .literal a => out ++ [a]
  | .copy length distance => out ++ copied out length distance

def expand (tokens : List (Token α)) (out : List α) : List α := tokens.foldl append out

@[simp] theorem expand_nil : expand [] out = out := rfl

@[simp] theorem expand_cons (tokens : List (Token α)) (out : List α) :
    expand (token :: tokens) out = expand tokens (append out token) := rfl

theorem expand_literals (as out : List α) : expand (as.map Token.literal) out = out ++ as := by
  induction as generalizing out with
  | nil => simp
  | cons a as ih =>
    rw [map_cons, expand_cons, ih]
    simp [append]

theorem length_le_append : out.length ≤ (append out token).length := by
  cases token <;> simp [append]

theorem length_le_expand (tokens : List (Token α)) (out : List α) :
    out.length ≤ (expand tokens out).length := by
  induction tokens generalizing out with
  | nil => exact Nat.le_refl _
  | cons token tokens ih => exact Nat.le_trans (length_le_append out token) (ih _)

@[simp] theorem length_copied (length distance : ℕ) :
    (copied out length distance).length = length := by
  simp [copied]

def pushBack (distance : ℕ) (out : List α) : List α :=
  out ++ [out.getD (out.length - distance) default]

theorem copied_succ (length distance : ℕ) : copied out (length + 1) distance =
      copied out length distance ++
        [out.getD (out.length - distance + length % distance) default] := by
  simp [copied, range_succ]

theorem iterate_pushBack {distance : ℕ} {out : List α} (hpos : 0 < distance)
    (hle : distance ≤ out.length) (length : ℕ) :
    (pushBack distance)^[length] out = out ++ copied out length distance := by
  induction length with
  | zero => simp [copied]
  | succ length ih =>
    rw [Function.iterate_succ_apply', ih, copied_succ, pushBack, append_assoc]
    rw [length_append, length_copied]
    by_cases hlt : length < distance
    · have hindex : out.length + length - distance = out.length - distance + length := by omega
      rw [Nat.mod_eq_of_lt hlt, hindex, getD_append _ _ _ _ (by omega)]
    · -- the element copied is itself a copy
      have hge : distance ≤ length := Nat.le_of_not_lt hlt
      have hindex : out.length + length - distance - out.length = length - distance := by omega
      have hin : length - distance < length := by omega
      rw [getD_append_right _ _ _ _ (by omega), hindex, copied,
        getD_eq_getElem _ _ (by simpa using hin)]
      simp only [getElem_map, getElem_range]
      rw [← Nat.mod_eq_sub_mod hge]

end Lz77
