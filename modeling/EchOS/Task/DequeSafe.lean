import EchOS.Task.Deque
import Mathlib.Data.List.Perm.Subperm

/-! No task of the work-stealing deque is lost or handed out twice, whatever the
interleaving of its owner and its thieves. -/

namespace EchOS.Scheduling.Deque

open RingWindow List Function

variable {α : Type*} {s : Deque α}

/-- The index after the last task that is still in the deque. While the owner pops, the
task at the new bottom leaves the deque when the owner sees that no thief can reach it. -/
def limit (bottom : ℤ) : OwnerPc α → ℤ
  | .popLoadTop b => b + 1
  | .popLoadSlot b t => if t = b then b + 1 else b
  | .popCasTop b _ _ => b + 1
  | .popRestore b _ => b + 1
  | _ => bottom

def inFlight (buffer : Fin dequeSize → Option α) : OwnerPc α → List (Option α)
  | .popLoadSlot b t => if t = b then [] else [buffer (idx b)]
  | .popRestore _ result => result.toList
  | _ => []

/-- What the owner's loaded values say about the shared ones. -/
def OwnerKnows (buffer : Fin dequeSize → Option α) (top bottom : ℤ) : OwnerPc α → Prop
  | .idle => True
  | .pushLoadTop _ b => bottom = b
  | .pushStoreSlot _ b => bottom = b ∧ b - top < dequeSize
  | .pushStoreBottom task b => bottom = b ∧ b - top < dequeSize ∧ buffer (idx b) = some task
  | .popStoreBottom b => bottom = b + 1
  | .popLoadTop b => bottom = b
  | .popLoadSlot b t => bottom = b ∧ t ≤ b ∧ t ≤ top
  | .popCasTop b t taskPtr => bottom = b ∧ t = b ∧ b ≤ top ∧ taskPtr = buffer (idx b)
  | .popRestore b _ => bottom = b ∧ top = b + 1

/-- What a thief's loaded values say, as long as its compare-exchange can still succeed. -/
def ThiefKnows (buffer : Fin dequeSize → Option α) (top limit : ℤ) : ThiefPc α → Prop
  | .idle => True
  | .stealLoadBottom t => t ≤ top
  | .stealLoadSlot t => t ≤ top ∧ (t = top → t < limit)
  | .stealCasTop t taskPtr => t ≤ top ∧ (t = top → t < limit ∧ taskPtr = buffer (idx t))

def entries (s : Deque α) : List (Option α) :=
  window s.buffer s.top (limit s.bottom s.owner)

structure Safe (s : Deque α) : Prop where
  owner : OwnerKnows s.buffer s.top s.bottom s.owner
  thieves : ∀ i, ThiefKnows s.buffer s.top (limit s.bottom s.owner) (s.thief i)
  top_le : s.top ≤ limit s.bottom s.owner
  le_top : limit s.bottom s.owner ≤ s.top + dequeSize
  account : (s.pushed.map some).Perm (s.returned ++ (inFlight s.buffer s.owner ++ s.entries))
  rejected : ∀ r ∈ s.rejected, r.1 - r.2 = dequeSize

theorem safe_new : Safe (new : Deque α) := by
  refine ⟨trivial, fun _ => trivial, le_rfl, ?_, ?_, ?_⟩
  · exact Int.le_add_of_nonneg_right (Int.natCast_nonneg _)
  · have hempty : (new : Deque α).entries = [] := window_of_le _ le_rfl
    exact List.Perm.nil
  · exact fun r hr => absurd hr not_mem_nil

namespace ThiefKnows

variable {buffer : Fin dequeSize → Option α} {top lim : ℤ} {pc : ThiefPc α}

theorem top_succ (h : ThiefKnows buffer top lim pc) : ThiefKnows buffer (top + 1) lim pc := by
  cases pc with
  | idle => trivial
  | stealLoadBottom t =>
    have : t ≤ top := h
    exact Int.le_trans this (by omega)
  | stealLoadSlot t | stealCasTop t taskPtr =>
    have := h.1
    exact ⟨by omega, fun _ => by omega⟩

theorem limit_change (h : ThiefKnows buffer top lim pc) (lim' : ℤ)
    (hlim : top < lim → top < lim') : ThiefKnows buffer top lim' pc := by
  cases pc with
  | idle => trivial
  | stealLoadBottom t => exact h
  | stealLoadSlot t =>
    refine ⟨h.1, ?_⟩
    rintro rfl
    exact hlim (h.2 rfl)
  | stealCasTop t taskPtr =>
    refine ⟨h.1, ?_⟩
    rintro rfl
    obtain ⟨hlt, hptr⟩ := h.2 rfl
    exact ⟨hlim hlt, hptr⟩

theorem store (h : ThiefKnows buffer top lim pc) {b : ℤ} (hle : lim ≤ b)
    (hlt : b < top + dequeSize) (x : Option α) :
    ThiefKnows (update buffer (idx b) x) top lim pc := by
  cases pc with
  | idle => trivial
  | stealLoadBottom t | stealLoadSlot t => exact h
  | stealCasTop t taskPtr =>
    refine ⟨h.1, ?_⟩
    rintro rfl
    obtain ⟨hlim, hptr⟩ := h.2 rfl
    have hne : idx t ≠ idx b := slot_ne (by omega) hlt
    exact ⟨hlim, by rw [update_of_ne hne, hptr]⟩

end ThiefKnows

section Owner

variable {s : Deque α} (h : Safe s) {task : α} {b t : ℤ}

include h

theorem Safe.sameLimit {s' : Deque α} (hbuffer : s'.buffer = s.buffer) (htop : s'.top = s.top)
    (hthief : s'.thief = s.thief) (hrejected : s'.rejected = s.rejected)
    (hknows : OwnerKnows s.buffer s.top s'.bottom s'.owner)
    (hlimit : limit s'.bottom s'.owner = limit s.bottom s.owner)
    (haccount : (s'.pushed.map some).Perm
      (s'.returned ++ (inFlight s.buffer s'.owner ++ s.entries))) : Safe s' where
  owner := by
    rw [hbuffer, htop]
    exact hknows
  thieves := by
    rw [hbuffer, htop, hthief, hlimit]
    exact h.thieves
  top_le := by
    rw [htop, hlimit]
    exact h.top_le
  le_top := by
    rw [htop, hlimit]
    exact h.le_top
  account := by
    rw [entries, hbuffer, htop, hlimit]
    exact haccount
  rejected := hrejected ▸ h.rejected

theorem Safe.setOwner {pc : OwnerPc α} (hknows : OwnerKnows s.buffer s.top s.bottom pc)
    (hlimit : limit s.bottom pc = limit s.bottom s.owner)
    (hflight : inFlight s.buffer pc = inFlight s.buffer s.owner) : Safe { s with owner := pc } :=
  h.sameLimit rfl rfl rfl rfl hknows hlimit (hflight.symm ▸ h.account)

theorem Safe.knows {pc : OwnerPc α} (ho : s.owner = pc) : OwnerKnows s.buffer s.top s.bottom pc :=
  ho ▸ h.owner

theorem safe_push (ho : s.owner = .idle) (task : α) : Safe (s.push task) := by
  refine h.setOwner rfl ?_ ?_ <;> rw [ho] <;> rfl

theorem safe_pop (ho : s.owner = .idle) : Safe s.pop := by
  refine h.setOwner (Int.sub_add_cancel _ _).symm ?_ ?_ <;> rw [ho] <;> rfl

theorem safe_pushLoadTop (ho : s.owner = .pushLoadTop task b) : Safe s.ownerStep := by
  have hb : s.bottom = b := h.knows ho
  have htop : s.top ≤ b := by simpa only [ho, limit, hb] using h.top_le
  have hle : b ≤ s.top + dequeSize := by simpa only [ho, limit, hb] using h.le_top
  simp only [ownerStep, ho]
  split_ifs with hfull
  · have hidle : Safe { s with owner := .idle } := by
      refine h.setOwner trivial ?_ ?_ <;> rw [ho] <;> rfl
    refine { hidle with rejected := ?_ }
    refine forall_mem_cons.mpr ⟨?_, h.rejected⟩
    simp only [isFull, Bool.or_eq_true, decide_eq_true_eq] at hfull
    omega
  · refine h.setOwner ⟨hb, ?_⟩ ?_ ?_
    · simp only [isFull, Bool.or_eq_true, decide_eq_true_eq] at hfull
      omega
    · rw [ho]
      rfl
    · rw [ho]
      rfl

theorem safe_pushStoreSlot (ho : s.owner = .pushStoreSlot task b) : Safe s.ownerStep := by
  obtain ⟨hb, hroom⟩ := h.knows ho
  have hlt : b < s.top + dequeSize := by omega
  have hlimit : limit s.bottom s.owner = b := by rw [ho, ← hb]; rfl
  simp only [ownerStep, ho]
  refine ⟨⟨hb, hroom, update_self _ _ _⟩, ?_, ?_, ?_, ?_, h.rejected⟩
  · intro i
    have hi := h.thieves i
    rw [hlimit] at hi
    rw [hb]
    exact hi.store le_rfl hlt _
  · exact hb.symm ▸ hlimit ▸ h.top_le
  · exact hb.symm ▸ hlimit ▸ h.le_top
  · have hacc := h.account
    rw [entries, hlimit, ho] at hacc
    change (s.pushed.map some).Perm (s.returned ++ ([] ++
      window (update s.buffer (idx b) (some task)) s.top s.bottom))
    rw [hb, idx, window_update _ le_rfl hlt]
    exact hacc

theorem safe_pushStoreBottom (ho : s.owner = .pushStoreBottom task b) : Safe s.ownerStep := by
  obtain ⟨hb, hroom, hslot⟩ := h.knows ho
  have hlimit : limit s.bottom s.owner = b := by rw [ho, ← hb]; rfl
  have htop : s.top ≤ b := hlimit ▸ h.top_le
  simp only [ownerStep, ho]
  refine ⟨trivial, ?_, ?_, ?_, ?_, h.rejected⟩
  · intro i
    have hi := h.thieves i
    exact hi.limit_change (b + 1) fun hlt => by omega
  · change s.top ≤ b + 1
    omega
  · change b + 1 ≤ s.top + dequeSize
    omega
  · have hacc := h.account
    rw [entries, hlimit, ho] at hacc
    change (some task :: s.pushed.map some).Perm
      (s.returned ++ window s.buffer s.top (b + 1))
    rw [window_concat _ htop, ← append_assoc]
    change (some task :: s.pushed.map some).Perm
      (s.returned ++ window s.buffer s.top b ++ [s.buffer (idx b)])
    rw [hslot]
    exact (hacc.cons _).trans (perm_append_singleton _ _).symm

theorem safe_popStoreBottom (ho : s.owner = .popStoreBottom b) : Safe s.ownerStep := by
  have hb : s.bottom = b + 1 := h.knows ho
  have hacc := h.account
  rw [ho] at hacc
  simp only [ownerStep, ho]
  refine h.sameLimit rfl rfl rfl rfl rfl ?_ hacc
  rw [ho, hb]
  rfl

theorem safe_popLoadTop (ho : s.owner = .popLoadTop b) : Safe s.ownerStep := by
  have hb : s.bottom = b := h.knows ho
  have hlimit : limit s.bottom s.owner = b + 1 := by rw [ho]; rfl
  have htop : s.top ≤ b + 1 := hlimit ▸ h.top_le
  have hle : b + 1 ≤ s.top + dequeSize := hlimit ▸ h.le_top
  simp only [ownerStep, ho]
  split_ifs with hne
  · rcases eq_or_lt_of_le hne with heq | hlt
    · -- the last task: thieves may still take it
      refine h.setOwner ⟨hb, hne, le_rfl⟩ ?_ ?_
      · rw [hlimit, limit, if_pos heq]
      · rw [inFlight, if_pos heq, ho]
        rfl
    · -- every thief that can still succeed holds the top, which is below this task
      have hlimit' : limit s.bottom (.popLoadSlot b s.top : OwnerPc α) = b := by
        rw [limit, if_neg (ne_of_lt hlt)]
      refine ⟨⟨hb, hne, le_rfl⟩, ?_, ?_, ?_, ?_, h.rejected⟩
      · intro i
        rw [hlimit']
        exact (h.thieves i).limit_change b fun _ => hlt
      · exact hlimit'.symm ▸ hne
      · change limit s.bottom (.popLoadSlot b s.top : OwnerPc α) ≤ s.top + dequeSize
        omega
      · have hacc := h.account
        rw [entries, hlimit, ho, window_concat _ hne] at hacc
        change (s.pushed.map some).Perm (s.returned ++
          (inFlight s.buffer (.popLoadSlot b s.top) ++ window s.buffer s.top
            (limit s.bottom (.popLoadSlot b s.top : OwnerPc α))))
        rw [hlimit', inFlight, if_neg (ne_of_lt hlt)]
        exact hacc.trans ((perm_append_singleton _ _).append_left _)
  · refine h.setOwner ⟨hb, by omega⟩ ?_ ?_
    · rw [hlimit]
      rfl
    · rw [ho]
      rfl

theorem safe_popLoadSlot (ho : s.owner = .popLoadSlot b t) : Safe s.ownerStep := by
  obtain ⟨hb, htb, ht⟩ := h.knows ho
  simp only [ownerStep, ho]
  split_ifs with heq
  · refine h.setOwner ⟨hb, heq, heq ▸ ht, rfl⟩ ?_ ?_
    · rw [ho, limit, limit, if_pos heq]
    · simp only [ho, inFlight, if_pos heq]
  · have hlimit : limit s.bottom s.owner = s.bottom := by rw [ho, limit, if_neg heq, hb]
    have hacc := h.account
    rw [ho, inFlight, if_neg heq] at hacc
    exact h.sameLimit rfl rfl rfl rfl trivial hlimit.symm (hacc.trans perm_middle)

theorem safe_popCasTop {taskPtr : Option α}
    (ho : s.owner = .popCasTop b t taskPtr) : Safe s.ownerStep := by
  obtain ⟨hb, rfl, htop, rfl⟩ := h.knows ho
  have hlimit : limit s.bottom s.owner = t + 1 := by rw [ho]; rfl
  have hle : s.top ≤ t + 1 := hlimit ▸ h.top_le
  simp only [ownerStep, ho]
  split_ifs with hwin
  · refine ⟨⟨hb, rfl⟩, ?_, le_rfl, ?_, ?_, h.rejected⟩
    · intro i
      have hi := h.thieves i
      rw [hlimit, hwin] at hi
      exact hi.top_succ
    · exact Int.le_add_of_nonneg_right (Int.natCast_nonneg _)
    · have hacc := h.account
      rw [entries, hlimit, ho, hwin, window_cons _ (by omega),
        window_of_le _ le_rfl] at hacc
      change (s.pushed.map some).Perm (s.returned ++ ([s.buffer (idx t)] ++
        window s.buffer (t + 1) (t + 1)))
      rw [window_of_le _ le_rfl]
      exact hacc
  · refine h.setOwner ⟨hb, by omega⟩ ?_ ?_
    · rw [hlimit]
      rfl
    · rw [ho]
      rfl

theorem safe_popRestore {result : Option (Option α)}
    (ho : s.owner = .popRestore b result) : Safe s.ownerStep := by
  have hacc := h.account
  rw [ho, ← append_assoc] at hacc
  simp only [ownerStep, ho]
  refine h.sameLimit rfl rfl rfl rfl trivial ?_
    (hacc.trans (perm_append_comm.append_right _))
  rw [ho]
  rfl

theorem safe_ownerStep : Safe s.ownerStep := by
  cases ho : s.owner with
  | idle => simpa only [ownerStep, ho] using h
  | pushLoadTop task b => exact safe_pushLoadTop h ho
  | pushStoreSlot task b => exact safe_pushStoreSlot h ho
  | pushStoreBottom task b => exact safe_pushStoreBottom h ho
  | popStoreBottom b => exact safe_popStoreBottom h ho
  | popLoadTop b => exact safe_popLoadTop h ho
  | popLoadSlot b t => exact safe_popLoadSlot h ho
  | popCasTop b t taskPtr => exact safe_popCasTop h ho
  | popRestore b result => exact safe_popRestore h ho

end Owner

theorem Safe.bottom_le_limit (h : Safe s) : s.bottom ≤ limit s.bottom s.owner := by
  have hknows := h.owner
  cases ho : s.owner <;> simp only [ho, OwnerKnows, limit] at hknows ⊢ <;> try split_ifs
  all_goals omega

theorem Safe.setThief (h : Safe s) (i : ℕ) {pc : ThiefPc α}
    (hpc : ThiefKnows s.buffer s.top (limit s.bottom s.owner) pc) : Safe (s.setThief i pc) := by
  refine { h with thieves := ?_ }
  intro j
  by_cases hj : j = i
  · subst hj
    simpa only [Deque.setThief, update_self] using hpc
  · simpa only [Deque.setThief, update_of_ne hj] using h.thieves j

theorem OwnerKnows.top_succ {buffer : Fin dequeSize → Option α} {top bottom : ℤ}
    {pc : OwnerPc α} (h : OwnerKnows buffer top bottom pc) (hlt : top < limit bottom pc) :
    OwnerKnows buffer (top + 1) bottom pc := by
  cases pc with
  | idle => trivial
  | pushLoadTop task b => exact h
  | pushStoreSlot task b => exact ⟨h.1, by have := h.2; omega⟩
  | pushStoreBottom task b => exact ⟨h.1, by have := h.2.1; omega, h.2.2⟩
  | popStoreBottom b | popLoadTop b => exact h
  | popLoadSlot b t => exact ⟨h.1, h.2.1, by have := h.2.2; omega⟩
  | popCasTop b t taskPtr => exact ⟨h.1, h.2.1, by have := h.2.2.1; omega, h.2.2.2⟩
  | popRestore b result =>
    have htop := h.2
    have : top < b + 1 := hlt
    omega

theorem Safe.takeTop (h : Safe s) (hlt : s.top < limit s.bottom s.owner) :
    Safe { s with top := s.top + 1, returned := s.buffer (idx s.top) :: s.returned } := by
  have hle := h.le_top
  refine ⟨h.owner.top_succ hlt, fun i => (h.thieves i).top_succ, hlt, ?_, ?_, h.rejected⟩
  · change limit s.bottom s.owner ≤ s.top + 1 + dequeSize
    omega
  · have hacc := h.account
    rw [entries, window_cons _ hlt] at hacc
    refine hacc.trans ?_
    rw [← append_assoc]
    refine perm_middle.trans ?_
    rw [append_assoc]
    rfl

theorem safe_thiefStep (h : Safe s) (i : ℕ) : Safe (s.thiefStep i) := by
  have hi := h.thieves i
  cases ht : s.thief i with
  | idle => simpa only [thiefStep, ht] using h
  | stealLoadBottom t =>
    simp only [thiefStep, ht]
    rw [ht] at hi
    split_ifs with hlt
    · exact h.setThief i ⟨hi, fun _ => lt_of_lt_of_le hlt h.bottom_le_limit⟩
    · exact h.setThief i trivial
  | stealLoadSlot t =>
    simp only [thiefStep, ht]
    rw [ht] at hi
    exact h.setThief i ⟨hi.1, fun heq => ⟨hi.2 heq, rfl⟩⟩
  | stealCasTop t taskPtr =>
    simp only [thiefStep, ht]
    rw [ht] at hi
    split_ifs with hwin
    · subst hwin
      obtain ⟨hlt, rfl⟩ := hi.2 rfl
      exact (h.takeTop hlt).setThief i trivial
    · exact h.setThief i trivial

theorem safe_step (s : Deque α) (op : Op α) (h : Safe s) : Safe (s.step op) := by
  cases op with
  | push task =>
    simp only [step]
    split
    · exact safe_push h ‹_› task
    · exact h
  | pop =>
    simp only [step]
    split
    · exact safe_pop h ‹_›
    · exact h
  | owner => exact safe_ownerStep h
  | steal i =>
    simp only [step]
    split
    · exact h.setThief i (le_refl s.top)
    · exact h
  | thief i => exact safe_thiefStep h i

/-- In every interleaving nothing is returned more often than it was pushed; whenever the owner is
not inside a call the rest is exactly the buffer from the top to the bottom; and a push is rejected
only at a full buffer. -/
theorem tasks_returned_at_most_once (ops : List (Op α)) :
    (Run.exec step new ops).returned.Subperm ((Run.exec step new ops).pushed.map some) ∧
    ((Run.exec step new ops).pushed.Nodup → (Run.exec step new ops).returned.Nodup) ∧
    ((Run.exec step new ops).owner = .idle →
      ((Run.exec step new ops).pushed.map some).Perm
        ((Run.exec step new ops).returned ++
          window (Run.exec step new ops).buffer (Run.exec step new ops).top
            (Run.exec step new ops).bottom)) ∧
    ∀ r ∈ (Run.exec step new ops).rejected, r.1 - r.2 = dequeSize := by
  have h := Run.exec_invariant safe_step (safe_new (α := α)) ops
  have hsub : (Run.exec step new ops).returned.Subperm
      ((Run.exec step new ops).pushed.map some) :=
    (sublist_append_left _ _).subperm.trans h.account.symm.subperm
  refine ⟨hsub, ?_, ?_, h.rejected⟩
  · intro hnd
    have hsome : ((Run.exec step new ops).pushed.map some).Nodup :=
      Pairwise.map some (fun _ _ hne heq => hne (Option.some.inj heq)) hnd
    obtain ⟨l, hperm, hl⟩ := hsub
    exact hperm.nodup (hsome.sublist hl)
  · intro ho
    have hacc := h.account
    rw [entries, ho] at hacc
    exact hacc

end EchOS.Scheduling.Deque
