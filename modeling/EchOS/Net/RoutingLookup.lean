import EchOS.Lib.KeyedList
import EchOS.Net.Routing

/-! The trie answers lookups with the longest prefix that is stored, whatever was inserted,
replaced and removed before. -/

namespace EchOS.Net

open ListTrie KeyedList List BitVec Bool RouteEntry

section Bits

variable {addr addr' : BitVec 32} {len : ℕ}

theorem bitAt_eq (addr : BitVec 32) (i : ℕ) : bitAt addr i = addr.getLsbD (31 - i) := by
  show (addr >>> (31 - i) &&& 1#32 != 0) = _
  rw [and_one_eq_setWidth_ofBool_getLsbD, getLsbD_ushiftRight]
  cases addr.getLsbD (31 - i) with
  | true => rfl
  | false => rfl

theorem getLsbD_prefixMask (hlen : len ≤ 32) {j : ℕ} (hj : j < 32) :
    (prefixMask len).getLsbD j = decide (32 - len ≤ j) := by
  unfold prefixMask
  split
  · have hlow : ¬(32 - 0 ≤ j) := by omega
    simp [hlow]
  · split_ifs with hfull
    · have hhigh : 32 - len ≤ j := by omega
      rw [getLsbD_allOnes, decide_eq_true hj, decide_eq_true hhigh]
    · rw [getLsbD_shiftLeft, getLsbD_allOnes, decide_eq_true hj]
      by_cases hhigh : 32 - len ≤ j
      · have hnot : ¬(j < 32 - len) := by omega
        have hrest : j - (32 - len) < 32 := by omega
        rw [decide_eq_false hnot, decide_eq_true hrest, decide_eq_true hhigh]
        rfl
      · have hlow : j < 32 - len := by omega
        rw [decide_eq_true hlow, decide_eq_false hhigh]
        rfl

theorem length_branches (addr : BitVec 32) (len : ℕ) : (branches addr len).length = len := by
  simp [branches]

theorem branches_eq_iff : branches addr len = branches addr' len ↔
    ∀ i < len, addr.getLsbD (31 - i) = addr'.getLsbD (31 - i) := by
  simp only [branches, map_inj_left, mem_range, bitAt_eq]

theorem branches_and_prefixMask (addr : BitVec 32) (hlen : len ≤ 32) :
    branches (addr &&& prefixMask len) len = branches addr len := by
  rw [branches_eq_iff]
  intro i hi
  have hmask : 32 - len ≤ 31 - i := by omega
  rw [getLsbD_and, getLsbD_prefixMask hlen (by omega), decide_eq_true hmask, Bool.and_true]

theorem and_prefixMask_eq_iff (hlen : len ≤ 32) :
    addr &&& prefixMask len = addr' &&& prefixMask len ↔
      branches addr len = branches addr' len := by
  constructor
  · intro h
    rw [← branches_and_prefixMask addr hlen, ← branches_and_prefixMask addr' hlen, h]
  · intro h
    rw [branches_eq_iff] at h
    apply eq_of_getLsbD_eq
    intro j hj
    rw [getLsbD_and, getLsbD_and, getLsbD_prefixMask hlen hj]
    by_cases hbit : 32 - len ≤ j
    · have hsame := h (31 - j) (by omega)
      have hindex : 31 - (31 - j) = j := by omega
      rw [hindex] at hsame
      rw [hsame]
    · rw [decide_eq_false hbit, Bool.and_false, Bool.and_false]

end Bits

namespace RouteEntry

def path (route : RouteEntry) : List Bool :=
  branches (route.dst &&& prefixMask route.dstPrefixLen) route.dstPrefixLen

@[simp] theorem length_path (route : RouteEntry) : route.path.length = route.dstPrefixLen :=
  length_branches _ _

theorem matches_iff {route : RouteEntry} (hlen : route.dstPrefixLen ≤ 32) (ip : BitVec 32) :
    route.matches ip ↔ route.path = branches ip route.dstPrefixLen := by
  unfold «matches» path
  rw [branches_and_prefixMask _ hlen]
  split_ifs with hzero
  · rw [hzero]
    exact ⟨fun _ => rfl, fun _ => rfl⟩
  · rw [beq_iff_eq, and_prefixMask_eq_iff hlen]
    exact eq_comm

def network (route : RouteEntry) : BitVec 32 × ℕ :=
  (route.dst &&& prefixMask route.dstPrefixLen, route.dstPrefixLen)

def sameRoute (a b : RouteEntry) : Bool :=
  a.network == b.network && a.gateway == b.gateway && a.iface == b.iface

theorem network_eq_iff_path {a b : RouteEntry} (ha : a.dstPrefixLen ≤ 32) :
    a.network = b.network ↔ a.path = b.path := by
  unfold network path
  constructor
  · intro h
    obtain ⟨hdst, hlen⟩ := Prod.mk.inj h
    rw [hdst, hlen]
  · intro h
    have hlen : a.dstPrefixLen = b.dstPrefixLen := by
      have hlength := congrArg length h
      rwa [length_branches, length_branches] at hlength
    rw [← hlen] at h ⊢
    rw [branches_and_prefixMask _ ha, branches_and_prefixMask _ ha,
      ← and_prefixMask_eq_iff ha] at h
    rw [h]

end RouteEntry

/-- The routes that a history of calls leaves stored. An insertion replaces a route to the same
network over the same gateway and interface, a removal drops all routes to the network. -/
abbrev StoredRoutes := List RouteEntry

inductive FibOp
  | insert (entry : RouteEntry)
  | remove (dst : BitVec 32) (prefixLen : ℕ)

def FibOp.prefixLen : FibOp → ℕ
  | .insert entry => entry.dstPrefixLen
  | .remove _ prefixLen => prefixLen

def StoredRoutes.step (stored : StoredRoutes) : FibOp → StoredRoutes
  | .insert entry => entry :: stored.filter fun route => !route.sameRoute entry
  | .remove dst prefixLen =>
    stored.filter fun route => !(route.network == (dst &&& prefixMask prefixLen, prefixLen))

def FibTrie.step (t : FibTrie) : FibOp → FibTrie
  | .insert entry => t.insert entry
  | .remove dst prefixLen => (t.remove dst prefixLen).2

/-- The trie holds the stored routes, each at the end of its path, by increasing metric. -/
structure FibTrie.Represents (t : FibTrie) (stored : StoredRoutes) : Prop where
  perm : ∀ path, (t.root.itemsAt path).Perm (stored.filter fun route => route.path = path)
  sorted : ∀ path, (t.root.itemsAt path).Pairwise fun a b => a.metric ≤ b.metric
  count : t.entryCount = .ofNat stored.length
  distinct : stored.Pairwise fun a b => ¬a.sameRoute b
  short : ∀ route ∈ stored, route.dstPrefixLen ≤ 32

namespace FibTrie

variable {t : FibTrie} {stored : StoredRoutes} {path : List Bool}

theorem represents_new : new.Represents [] where
  perm path := by rw [new, itemsAt_empty]; rfl
  sorted path := by rw [new, itemsAt_empty]; exact Pairwise.nil
  count := rfl
  distinct := Pairwise.nil
  short := fun route h => nomatch h

theorem Represents.mem_itemsAt (h : t.Represents stored) {route : RouteEntry} :
    route ∈ t.root.itemsAt path ↔ route ∈ stored ∧ route.path = path := by
  rw [(h.perm path).mem_iff, mem_filter, decide_eq_true_iff]

theorem putRoute_sorted (entry : RouteEntry) (routes : List RouteEntry) :
    (putRoute entry routes).Pairwise fun a b => a.metric ≤ b.metric := by
  have htrans : ∀ a b c : RouteEntry, decide (a.metric ≤ b.metric) → decide (b.metric ≤ c.metric) →
      decide (a.metric ≤ c.metric) := by
    intro a b c hab hbc
    exact decide_eq_true (UInt32.le_trans (of_decide_eq_true hab) (of_decide_eq_true hbc))
  have htotal : ∀ a b : RouteEntry,
      (decide (a.metric ≤ b.metric) || decide (b.metric ≤ a.metric)) = true := by
    intro a b
    rw [or_eq_true, decide_eq_true_iff, decide_eq_true_iff]
    exact UInt32.le_total _ _
  exact (pairwise_mergeSort htrans htotal _).imp of_decide_eq_true

theorem putRoute_perm {entry : RouteEntry} {routes : List RouteEntry}
    (h : AtMostOne (sameHop entry) routes) :
    (putRoute entry routes).Perm (entry :: routes.filter fun route => !sameHop entry route) := by
  refine (mergeSort_perm _ _).trans ?_
  cases hidx : routes.findIdx? (sameHop entry) with
  | some i => exact h.set_perm hidx entry
  | none =>
    have hnone : ∀ route ∈ routes, ¬sameHop entry route := by
      intro route hroute
      rw [List.findIdx?_eq_none_iff.mp hidx route hroute]
      exact Bool.false_ne_true
    rw [filter_not_of_none hnone]
    exact perm_append_singleton entry routes

section Insert

variable {entry : RouteEntry} (h : t.Represents stored)
include h

theorem Represents.sameRoute_iff {route : RouteEntry} (hroute : route ∈ stored) :
    route.sameRoute entry ↔ route.path = entry.path ∧ sameHop entry route := by
  unfold sameRoute sameHop
  rw [Bool.and_assoc, and_eq_true, beq_iff_eq,
    network_eq_iff_path (h.short route hroute)]

theorem Represents.atMostOne_stored : AtMostOne (fun route => route.sameRoute entry) stored := by
  refine h.distinct.imp ?_
  intro a b hnot ⟨ha, hb⟩
  simp only [sameRoute, and_eq_true, beq_iff_eq] at ha hb hnot
  exact hnot ⟨⟨ha.1.1.trans hb.1.1.symm, ha.1.2.trans hb.1.2.symm⟩, ha.2.trans hb.2.symm⟩

theorem Represents.atMostOne_itemsAt : AtMostOne (sameHop entry) (t.root.itemsAt entry.path) := by
  have hfilter : AtMostOne (sameHop entry)
      (stored.filter fun route => route.path = entry.path) := by
    have hone : AtMostOne (fun route => route.sameRoute entry) stored :=
      h.atMostOne_stored
    refine (Pairwise.sublist filter_sublist hone).imp_of_mem ?_
    intro a b ha hb hnot ⟨hhopA, hhopB⟩
    obtain ⟨haStored, haPath⟩ := mem_filter.mp ha
    obtain ⟨hbStored, hbPath⟩ := mem_filter.mp hb
    refine hnot ⟨(h.sameRoute_iff haStored).mpr ⟨?_, hhopA⟩,
      (h.sameRoute_iff hbStored).mpr ⟨?_, hhopB⟩⟩
    · exact of_decide_eq_true haPath
    · exact of_decide_eq_true hbPath
  exact hfilter.perm (h.perm entry.path).symm

theorem Represents.filter_path_sameRoute :
    (stored.filter fun route => !route.sameRoute entry).filter
        (fun route => route.path = entry.path) =
      (stored.filter fun route => route.path = entry.path).filter
        fun route => !sameHop entry route := by
  refine filter_not_filter fun route hroute hpath => ?_
  have hiff : route.sameRoute entry ↔ _ := h.sameRoute_iff hroute
  rw [Bool.eq_iff_iff, hiff]
  exact and_iff_right (of_decide_eq_true hpath)

theorem Represents.filter_other_path {path : List Bool} (hpath : path ≠ entry.path) :
    (stored.filter fun route => !route.sameRoute entry).filter (fun route => route.path = path) =
      stored.filter fun route => route.path = path := by
  refine filter_not_filter_of_false fun route hroute hhere => ?_
  rw [eq_false_iff]
  intro hsame
  exact hpath ((of_decide_eq_true hhere).symm.trans ((h.sameRoute_iff hroute).mp hsame).1)

theorem Represents.length_insert (entry : RouteEntry) :
    (t.insert entry).entryCount = .ofNat (StoredRoutes.step stored (.insert entry)).length := by
  show (if (t.root.itemsAt entry.path).any (sameHop entry) then t.entryCount
    else t.entryCount + 1) =
      .ofNat (entry :: stored.filter fun route => !route.sameRoute entry).length
  have hany : (t.root.itemsAt entry.path).any (sameHop entry) ↔
      ∃ route ∈ stored, route.sameRoute entry := by
    rw [any_eq_true]
    constructor
    · rintro ⟨route, hroute, hhop⟩
      obtain ⟨hstored, hpath⟩ := h.mem_itemsAt.mp hroute
      exact ⟨route, hstored, (h.sameRoute_iff hstored).mpr ⟨hpath, hhop⟩⟩
    · rintro ⟨route, hstored, hsame⟩
      obtain ⟨hpath, hhop⟩ := (h.sameRoute_iff hstored).mp hsame
      exact ⟨route, h.mem_itemsAt.mpr ⟨hstored, hpath⟩, hhop⟩
  rw [length_cons, h.count]
  by_cases hsome : ∃ route ∈ stored, route.sameRoute entry
  · rw [if_pos (hany.mpr hsome), (h.atMostOne_stored).length_filter hsome]
  · have hnone : ∀ route ∈ stored, ¬route.sameRoute entry := by
      intro route hroute hsame
      exact hsome ⟨route, hroute, hsame⟩
    rw [if_neg (fun hyes => hsome (hany.mp hyes)), filter_not_of_none hnone, UInt32.ofNat_add]
    rfl

theorem Represents.insert (hlen : entry.dstPrefixLen ≤ 32) :
    (t.insert entry).Represents (StoredRoutes.step stored (.insert entry)) where
  perm path := by
    show ((t.root.alter (putRoute entry) entry.path).itemsAt path).Perm
      ((entry :: stored.filter fun route => !route.sameRoute entry).filter _)
    rw [itemsAt_alter]
    split_ifs with hpath
    · subst hpath
      rw [filter_cons_of_pos (by simp), h.filter_path_sameRoute]
      refine (putRoute_perm h.atMostOne_itemsAt).trans ?_
      exact ((h.perm entry.path).filter _).cons entry
    · rw [filter_cons_of_neg (by simpa using Ne.symm hpath), h.filter_other_path hpath]
      exact h.perm path
  sorted path := by
    show ((t.root.alter (putRoute entry) entry.path).itemsAt path).Pairwise _
    rw [itemsAt_alter]
    split_ifs
    · exact putRoute_sorted entry _
    · exact h.sorted path
  count := h.length_insert entry
  distinct := by
    refine pairwise_cons.mpr ⟨?_, h.distinct.sublist filter_sublist⟩
    intro route hroute hsame
    obtain ⟨_, hnot⟩ := mem_filter.mp hroute
    simp only [sameRoute, and_eq_true, beq_iff_eq] at hsame
    simp [sameRoute, hsame.1.1, hsame.1.2, hsame.2] at hnot
  short route hroute := by
    rcases mem_cons.mp hroute with rfl | hrest
    · exact hlen
    · exact h.short route (mem_of_mem_filter hrest)

end Insert

theorem remove_cases (t : FibTrie) (dst : BitVec 32) (prefixLen : ℕ)
    (hpath : path = branches (dst &&& prefixMask prefixLen) prefixLen) :
    (t.root.itemsAt path = [] ∧ (t.remove dst prefixLen).2 = t) ∨
      (t.remove dst prefixLen).2 =
        ⟨t.root.alter (fun _ => []) path, t.entryCount - .ofNat (t.root.itemsAt path).length⟩ := by
  unfold FibTrie.remove
  rw [← hpath]
  dsimp only
  cases hnode : t.root.nodeAt path with
  | none => exact .inl ⟨itemsAt_of_nodeAt_eq_none hnode, rfl⟩
  | some node =>
    have hitems := itemsAt_of_nodeAt hnode
    dsimp only
    split_ifs with hfull
    · rw [hitems]
      exact .inr rfl
    · have hempty : node.items = [] := by simpa using hfull
      exact .inl ⟨hitems.trans hempty, rfl⟩

section Remove

variable {dst : BitVec 32} {prefixLen : ℕ} {path : List Bool}

theorem Represents.step_remove (h : t.Represents stored)
    (hpath : path = branches (dst &&& prefixMask prefixLen) prefixLen) :
    StoredRoutes.step stored (.remove dst prefixLen) =
      stored.filter fun route => !decide (route.path = path) := by
  apply filter_congr
  intro route hroute
  -- Any route to the network stands for the arguments of the removal.
  have hiff := network_eq_iff_path (b := .unicast dst prefixLen 0 "" 0)
    (h.short route hroute)
  have hsame : (route.network == (dst &&& prefixMask prefixLen, prefixLen)) =
      decide (route.path = path) := by
    rw [Bool.eq_iff_iff, beq_iff_eq, decide_eq_true_iff, hpath]
    exact hiff
  rw [hsame]

theorem Represents.remove (h : t.Represents stored) (dst : BitVec 32) (prefixLen : ℕ) :
    (t.remove dst prefixLen).2.Represents (StoredRoutes.step stored (.remove dst prefixLen)) := by
  obtain ⟨path, hpath⟩ : ∃ path, path = branches (dst &&& prefixMask prefixLen) prefixLen :=
    ⟨_, rfl⟩
  rw [h.step_remove hpath]
  obtain ⟨hempty, hsame⟩ | hcleared := remove_cases t dst prefixLen hpath
  · have hnone : ∀ route ∈ stored, ¬decide (route.path = path) := by
      intro route hroute hhere
      have hmem := h.mem_itemsAt.mpr ⟨hroute, of_decide_eq_true hhere⟩
      rw [hempty] at hmem
      cases hmem
    rw [hsame, filter_not_of_none hnone]
    exact h
  · rw [hcleared]
    constructor
    · intro path'
      rw [itemsAt_alter]
      split_ifs with hhere
      · subst hhere
        simp [filter_filter]
      · have hkept : ∀ route ∈ stored, decide (route.path = path') →
            decide (route.path = path) = false := fun route _ hroute =>
          decide_eq_false fun heq => hhere ((of_decide_eq_true hroute).symm.trans heq)
        rw [filter_not_filter_of_false hkept]
        exact h.perm path'
    · intro path'
      rw [itemsAt_alter]
      split_ifs
      · exact Pairwise.nil
      · exact h.sorted path'
    · show t.entryCount - .ofNat (t.root.itemsAt path).length = _
      have hsplit := length_eq_length_filter_add (l := stored)
        fun route => decide (route.path = path)
      rw [h.count, (h.perm path).length_eq, hsplit, UInt32.ofNat_add, UInt32.add_comm,
        UInt32.add_sub_cancel]
    · exact h.distinct.sublist filter_sublist
    · intro route hroute
      exact h.short route (mem_of_mem_filter hroute)

end Remove

theorem Represents.step (h : t.Represents stored) (op : FibOp) (hlen : op.prefixLen ≤ 32) :
    (t.step op).Represents (StoredRoutes.step stored op) := by
  cases op with
  | insert entry => exact h.insert hlen
  | remove dst prefixLen => exact h.remove dst prefixLen

theorem represents_exec (ops : List FibOp) (hlen : ∀ op ∈ ops, op.prefixLen ≤ 32)
    (h : t.Represents stored) :
    (Run.exec FibTrie.step t ops).Represents (Run.exec StoredRoutes.step stored ops) := by
  induction ops generalizing t stored with
  | nil => exact h
  | cons op ops ih =>
    have hstep := h.step op (hlen op mem_cons_self)
    exact ih (fun op' hop' => hlen op' (mem_cons_of_mem op hop')) hstep

section Lookup

variable (ip : BitVec 32)

theorem lookupCandidates_cases (t : FibTrie) (ip : BitVec 32) :
    (t.lookupCandidates ip = none ∧ ∀ i ≤ 32, t.root.itemsAt (branches ip i) = []) ∨
      ∃ i ≤ 32, t.root.itemsAt (branches ip i) ≠ [] ∧
        t.lookupCandidates ip = some (t.root.itemsAt (branches ip i)) ∧
        ∀ j, i < j → j ≤ 32 → t.root.itemsAt (branches ip j) = [] := by
  have htake : ∀ i ≤ 32, (branches ip 32).take i = branches ip i := by
    intro i hi
    unfold branches
    rw [← map_take, take_range, Nat.min_eq_left hi]
  have hroot : t.root.itemsAt (branches ip 0) = t.root.items := itemsAt_nil _
  unfold lookupCandidates
  obtain ⟨hbest, hnone⟩ | ⟨i, hpos, hle, hitems, hlast, hafter⟩ :=
    lastItems_cases (branches ip 32) t.root
      (if t.root.items.isEmpty then none else some t.root.items)
  · have hdeep : ∀ i, 0 < i → i ≤ 32 → t.root.itemsAt (branches ip i) = [] := by
      intro i hpos hle
      rw [← htake i hle]
      exact hnone i hpos hle
    rw [hbest]
    split_ifs with hempty
    · left
      refine ⟨rfl, fun i hle => ?_⟩
      by_cases hzero : i = 0
      · rw [hzero]
        exact isEmpty_iff.mp hempty
      · exact hdeep i (by omega) hle
    · right
      refine ⟨0, by omega, ?_, by rw [hroot], hdeep⟩
      exact fun heq => hempty (isEmpty_iff.mpr heq)
  · right
    rw [htake i hle] at hitems hlast
    refine ⟨i, hle, hitems, hlast, fun j hj hjle => ?_⟩
    rw [← htake j hjle]
    exact hafter j hj hjle

theorem Represents.matches_iff {route : RouteEntry} (h : t.Represents stored)
    (hroute : route ∈ stored) :
    route.matches ip ↔ route ∈ t.root.itemsAt (branches ip route.dstPrefixLen) := by
  rw [RouteEntry.matches_iff (h.short route hroute), h.mem_itemsAt]
  exact ⟨fun hpath => ⟨hroute, hpath⟩, fun hand => hand.2⟩

end Lookup

end FibTrie

/-- A stored route that covers the address, with no longer prefix among those that do, and no
smaller metric among those of its prefix. -/
structure StoredRoutes.Best (stored : StoredRoutes) (ip : BitVec 32) (route : RouteEntry) :
    Prop where
  mem : route ∈ stored
  covers : route.matches ip
  longest : ∀ other ∈ stored, other.matches ip → other.dstPrefixLen ≤ route.dstPrefixLen
  cheapest : ∀ other ∈ stored, other.network = route.network → route.metric ≤ other.metric

namespace FibTrie

variable {t : FibTrie} {stored : StoredRoutes}

theorem Represents.best (h : t.Represents stored) {ip : BitVec 32} {i : ℕ} {route : RouteEntry}
    {rest : List RouteEntry} (hitems : t.root.itemsAt (branches ip i) = route :: rest)
    (hafter : ∀ j, i < j → j ≤ 32 → t.root.itemsAt (branches ip j) = []) :
    stored.Best ip route := by
  have hroute : route ∈ t.root.itemsAt (branches ip i) := hitems ▸ mem_cons_self
  obtain ⟨hmem, hpath⟩ := h.mem_itemsAt.mp hroute
  have hlength : route.dstPrefixLen = i := by
    have hlen := congrArg length hpath
    rwa [length_path, length_branches] at hlen
  constructor
  · exact hmem
  · rw [h.matches_iff ip hmem, hlength]
    exact hroute
  · intro other hother hcovers
    by_contra hlonger
    have hmet := (h.matches_iff ip hother).mp hcovers
    rw [hafter other.dstPrefixLen (by omega) (h.short other hother)] at hmet
    cases hmet
  · intro other hother hnetwork
    have hpathOther := (network_eq_iff_path (h.short other hother)).mp hnetwork
    have hmet := h.mem_itemsAt.mpr ⟨hother, hpathOther.trans hpath⟩
    have hsorted := h.sorted (branches ip i)
    rw [hitems] at hmet hsorted
    rcases mem_cons.mp hmet with rfl | hrest
    · exact UInt32.le_refl _
    · exact (pairwise_cons.mp hsorted).1 other hrest

theorem Represents.lookup_cases (h : t.Represents stored) (ip : BitVec 32) :
    (t.lookup ip = none ∧ ∀ route ∈ stored, ¬route.matches ip) ∨
      ∃ route, t.lookup ip = some route ∧ stored.Best ip route := by
  unfold lookup
  obtain ⟨hnone, hempty⟩ | ⟨i, hle, hitems, hsome, hafter⟩ := lookupCandidates_cases t ip
  · refine .inl ⟨by rw [hnone]; rfl, fun route hroute hcovers => ?_⟩
    have hmet := (h.matches_iff ip hroute).mp hcovers
    rw [hempty _ (h.short route hroute)] at hmet
    cases hmet
  · obtain ⟨route, rest, hcons⟩ := exists_cons_of_ne_nil hitems
    exact .inr ⟨route, by rw [hsome, hcons]; rfl, h.best hcons hafter⟩

/-- After any insertions and removals, lookups match the longest stored prefix and the length is
the number of routes stored, modulo `2 ^ 32`. -/
theorem lookup_longest_prefix (ops : List FibOp) (hlen : ∀ op ∈ ops, op.prefixLen ≤ 32) :
    (Run.exec FibTrie.step new ops).len = .ofNat (Run.exec StoredRoutes.step [] ops).length ∧
      ∀ ip : BitVec 32,
        ((Run.exec FibTrie.step new ops).lookup ip = none ↔
            ∀ route ∈ Run.exec StoredRoutes.step [] ops, ¬route.matches ip) ∧
          ∀ route, (Run.exec FibTrie.step new ops).lookup ip = some route →
            (Run.exec StoredRoutes.step [] ops).Best ip route := by
  have hrep := represents_exec ops hlen represents_new
  refine ⟨hrep.count, fun ip => ?_⟩
  obtain ⟨hnone, hnot⟩ | ⟨route, hsome, hbest⟩ := hrep.lookup_cases ip
  · exact ⟨iff_of_true hnone hnot, fun route hlookup => nomatch hnone.symm.trans hlookup⟩
  · refine ⟨iff_of_false (fun hnone => nomatch hnone.symm.trans hsome) fun hnot =>
      hnot route hbest.mem hbest.covers, fun found hlookup => ?_⟩
    obtain rfl := Option.some.inj (hsome.symm.trans hlookup)
    exact hbest

/-- A default route, two routes to one network of which the second replaces the first, and one
to a network inside it that is removed again. -/
def officeRoutes : List FibOp :=
  [.insert (.unicast 0 0 0xC0A80101 "eth0" 100),
    .insert (.unicast 0x0A000000 8 0x0A000001 "eth0" 50),
    .insert (.unicast 0x0A0000FF 8 0x0A000001 "eth0" 20),
    .insert (.unicast 0x0A010000 16 0x0A010001 "eth1" 10), .remove 0x0A01FFFF 16]

theorem lookup_longest_prefix_officeRoutes :
    (Run.exec FibTrie.step new officeRoutes).len = 2 ∧
      (Run.exec FibTrie.step new officeRoutes).lookup 0x0A010203 =
        some (.unicast 0x0A0000FF 8 0x0A000001 "eth0" 20) := by
  have hlen : ∀ op ∈ officeRoutes, op.prefixLen ≤ 32 := by decide
  obtain ⟨hcount, hlookup⟩ := lookup_longest_prefix officeRoutes hlen
  obtain ⟨hnone, hbest⟩ := hlookup 0x0A010203
  refine ⟨hcount, ?_⟩
  cases hfound : (Run.exec FibTrie.step new officeRoutes).lookup 0x0A010203 with
  | none => exact absurd (hnone.mp hfound) (by decide)
  | some route =>
    have hroute := hbest route hfound
    have hlong :=
      hroute.longest (.unicast 0x0A0000FF 8 0x0A000001 "eth0" 20) (by decide) (by decide)
    rcases mem_cons.mp hroute.mem with rfl | hrest
    · rfl
    · rw [mem_singleton.mp hrest] at hlong
      exact absurd hlong (by decide)

end FibTrie

end EchOS.Net
