import EchOS.Fs.FatChain

/-! Integrity of a file allocation table: the chains in use are disjoint and hold exactly the
clusters that are not free, and the operations keep it so. -/

namespace EchOS.Fs.Fat

open LinkedList List

structure Chained (fs : Fat32Fs) (fatData : FatData) (chains : List (List ℕ)) : Prop where
  room : 4 * fs.totalClusters.toNat ≤ fatData.length
  linked : ∀ chain ∈ chains, chain ≠ [] ∧ Seg (link fatData) chain.head? chain none
  apart : chains.flatten.Nodup
  covers : ∀ c, c ∈ chains.flatten ↔
    2 ≤ c ∧ c < fs.totalClusters.toNat ∧ readFatEntry fatData c ≠ fat32Free

/-- The chains from the heads are acyclic, terminated and disjoint, and no cluster is in use
outside them. -/
def Intact (fs : Fat32Fs) (st : State) : Prop :=
  ∃ chains : List (List ℕ), (chains.map List.head?).Perm (st.heads.map some) ∧
    Chained fs st.fatData chains

namespace Chained

variable {fs : Fat32Fs} {fatData fatData' : FatData} {chains old others : List (List ℕ)}
  {chain : List ℕ}

theorem perm (h : Chained fs fatData chains) (hperm : chains.Perm old) :
    Chained fs fatData old where
  room := h.room
  linked := fun chain hchain => h.linked chain (hperm.mem_iff.mpr hchain)
  apart := (hperm.flatten.nodup_iff).mp h.apart
  covers := fun c => (hperm.flatten.mem_iff).symm.trans (h.covers c)

theorem replace {clusters : List ℕ} (old : List (List ℕ)) (h : Chained fs fatData (old ++ others))
    (hclusters : old.flatten = clusters) (hchain : Rewired fatData fatData' clusters chain)
    (hfresh : ∀ c ∈ chain, c ∈ clusters ∨
      2 ≤ c ∧ c < fs.totalClusters.toNat ∧ readFatEntry fatData c = fat32Free)
    (hnodup : chain.Nodup) :
    Chained fs fatData' (if chain = [] then others else chain :: others) := by
  subst hclusters
  have hflat : (old ++ others).flatten = old.flatten ++ others.flatten := flatten_append
  have hapart := h.apart
  rw [hflat] at hapart
  obtain ⟨-, hothers, hdisjoint⟩ := nodup_append.mp hapart
  have hcovers : ∀ c, c ∈ old.flatten ∨ c ∈ others.flatten ↔
      2 ≤ c ∧ c < fs.totalClusters.toNat ∧ readFatEntry fatData c ≠ fat32Free := by
    intro c
    rw [← mem_append, ← hflat]
    exact h.covers c
  -- a cluster of another chain is neither in the old chains nor free
  have hother : ∀ c ∈ others.flatten, c ∉ old.flatten ∧ c ∉ chain := by
    intro c hc
    have hold : c ∉ old.flatten := fun hmem => hdisjoint c hmem c hc rfl
    refine ⟨hold, fun hmem => ?_⟩
    rcases hfresh c hmem with hin | ⟨-, -, hfree⟩
    · exact hold hin
    · exact ((hcovers c).mp (.inr hc)).2.2 hfree
  have hnew : (if chain = [] then others else chain :: others).flatten =
      chain ++ others.flatten := by
    split_ifs with hempty
    · rw [hempty, nil_append]
    · rfl
  refine ⟨hchain.length ▸ h.room, ?_, ?_, ?_⟩
  · intro l hl
    have hcases : (l ≠ [] ∧ l = chain) ∨ l ∈ others := by
      split_ifs at hl with hempty
      · exact .inr hl
      · rcases mem_cons.mp hl with rfl | hold
        · exact .inl ⟨hempty, rfl⟩
        · exact .inr hold
    rcases hcases with ⟨hne, rfl⟩ | hold
    · exact ⟨hne, hchain.seg⟩
    · obtain ⟨hne, hseg⟩ := h.linked l (mem_append_right _ hold)
      refine ⟨hne, hseg.congr fun c hc => link_congr ?_⟩
      obtain ⟨hout, hnew⟩ := hother c (mem_flatten.mpr ⟨l, hold, hc⟩)
      exact hchain.same c hout hnew
  · rw [hnew]
    refine nodup_append.mpr ⟨hnodup, hothers, ?_⟩
    rintro c hin d hd rfl
    exact (hother c hd).2 hin
  · intro c
    rw [hnew, mem_append]
    constructor
    · rintro (hin | hold)
      · have hrange : 2 ≤ c ∧ c < fs.totalClusters.toNat := by
          rcases hfresh c hin with hin | ⟨hlow, hhigh, -⟩
          · have hin := (hcovers c).mp (.inl hin)
            exact ⟨hin.1, hin.2.1⟩
          · exact ⟨hlow, hhigh⟩
        exact ⟨hrange.1, hrange.2, hchain.taken c hin⟩
      · obtain ⟨hout, hnew⟩ := hother c hold
        rw [hchain.same c hout hnew]
        exact (hcovers c).mp (.inr hold)
    · rintro ⟨hlow, hhigh, hused⟩
      by_cases hin : c ∈ chain
      · exact .inl hin
      · have hout : c ∉ old.flatten := fun hold => hused (hchain.freed c hold hin)
        rw [hchain.same c hout hin] at hused
        exact .inr (((hcovers c).mpr ⟨hlow, hhigh, hused⟩).resolve_left hout)

variable (hfs : fs.totalClusters.toNat ≤ fat32Eof) {c : ℕ}

include hfs in
theorem inside (h : Chained fs fatData chains) (hc : c ∈ chains.flatten) : Inside fatData c := by
  obtain ⟨hlow, hhigh, -⟩ := (h.covers c).mp hc
  have hroom := h.room
  exact ⟨hlow, by omega, by omega⟩

theorem taken (h : Chained fs fatData chains) (hc : c ∈ chains.flatten) :
    readFatEntry fatData c ≠ fat32Free :=
  ((h.covers c).mp hc).2.2

include hfs in
theorem inside_clusters (h : Chained fs fatData chains) (hc : c ∈ fs.clusters) :
    Inside fatData c ∧ 2 ≤ c ∧ c < fs.totalClusters.toNat := by
  obtain ⟨hlow, hhigh⟩ := mem_range'_1.mp hc
  have hroom := h.room
  exact ⟨⟨hlow, by omega, by omega⟩, hlow, by omega⟩

end Chained

theorem nodup_clusters (fs : Fat32Fs) : fs.clusters.Nodup := nodup_range'

section Operations

variable {fs : Fat32Fs} {fatData : FatData} {chains others : List (List ℕ)} {chain : List ℕ}
  {head : ℕ} (hfs : fs.totalClusters.toNat ≤ fat32Eof)

section

variable (h : Chained fs fatData (chain :: others)) (hhead : chain.head? = some head)
include hfs h hhead

theorem Chained.start : WellFormed fatData head chain := by
  have hmem : ∀ c ∈ chain, c ∈ (chain :: others).flatten := by
    intro c hc
    exact mem_flatten.mpr ⟨chain, mem_cons_self, hc⟩
  have hin : head ∈ chain := mem_of_mem_head? hhead
  have hptr : ptr head = some head := ptr_of_lt (h.inside hfs (hmem head hin)).2.1
  obtain ⟨-, hseg⟩ := h.linked chain mem_cons_self
  rw [hhead, ← hptr] at hseg
  exact ⟨hseg, (nodup_flatten.mp h.apart).1 chain mem_cons_self,
    fun c hc => h.inside hfs (hmem c hc)⟩

theorem Chained.free :
    ∃ fatData', freeClusters fatData head = some fatData' ∧ Chained fs fatData' others := by
  obtain ⟨fatData', hrun, hfreed⟩ := (h.start hfs hhead).free
  exact ⟨fatData', hrun, h.replace [chain] (append_nil _) hfreed (fun _ hc => nomatch hc)
    nodup_nil⟩

theorem Chained.truncate (newCount : ℕ) :
    ∃ fatData', truncateChain fatData head newCount = some fatData' ∧
      Chained fs fatData' (if newCount = 0 then others else chain.take newCount :: others) := by
  have hchain := h.start hfs hhead
  obtain ⟨fatData', hrun, hcut⟩ := hchain.truncate newCount
  have hreplaced := h.replace [chain] (append_nil _) hcut
    (fun c hc => .inl (mem_of_mem_take hc))
    (hchain.nodup.sublist (take_sublist newCount chain))
  refine ⟨fatData', hrun, ?_⟩
  have hne : chain ≠ [] := (h.linked chain mem_cons_self).1
  have hempty : chain.take newCount = [] ↔ newCount = 0 := by
    rw [take_eq_nil_iff]
    exact ⟨fun heq => heq.resolve_right hne, .inl⟩
  simp only [hempty] at hreplaced
  exact hreplaced

end

include hfs in
theorem Chained.allocate (h : Chained fs fatData chains) (count : ℕ) :
    ∃ added : List (List ℕ), added.map head? =
        (fs.allocateClusters fatData count).1.toList.map some ∧
      Chained fs (fs.allocateClusters fatData count).2 (added ++ chains) := by
  have hinside : ∀ c ∈ fs.clusters, Inside fatData c := fun c hc => (h.inside_clusters hfs hc).1
  rcases allocateFree_none count (nodup_clusters fs) hinside with
    hnone | ⟨first, clusters, fatData', heq, hsub, hfirst, hgrown⟩
  · refine ⟨[], ?_, ?_⟩
    · rw [Fat32Fs.allocateClusters, hnone]
      rfl
    · rw [Fat32Fs.allocateClusters, hnone]
      exact h
  · refine ⟨[first :: clusters], ?_, ?_⟩
    · rw [Fat32Fs.allocateClusters, heq]
      rfl
    · have hfree : ∀ c ∈ first :: clusters, readFatEntry fatData c = fat32Free :=
        forall_mem_cons.mpr ⟨hfirst, hgrown.free⟩
      rw [Fat32Fs.allocateClusters, heq]
      refine h.replace [] rfl hgrown.toRewired (fun c hc => ?_) ((nodup_clusters fs).sublist hsub)
      obtain ⟨-, hlow, hhigh⟩ := h.inside_clusters hfs (hsub.subset hc)
      exact .inr ⟨hlow, hhigh, hfree c hc⟩

include hfs in
theorem Chained.grow {fatData' : FatData} {before clusters : List ℕ} {last : ℕ}
    (h : Chained fs fatData ((before ++ [last]) :: others)) (hsub : clusters.Sublist fs.clusters)
    (hgrown : Grown fatData fatData' last clusters) :
    Chained fs fatData' ((before ++ [last] ++ clusters) :: others) := by
  have hnodup : (before ++ [last]).Nodup := (nodup_flatten.mp h.apart).1 _ mem_cons_self
  have htaken : ∀ c ∈ before ++ [last], readFatEntry fatData c ≠ fat32Free :=
    fun c hc => h.taken (mem_flatten.mpr ⟨_, mem_cons_self, hc⟩)
  have hapart : ∀ c ∈ before ++ [last], c ∉ clusters :=
    fun c hin hc => htaken c hin (hgrown.free c hc)
  have hbefore : ∀ c ∈ before, c ∉ last :: clusters := by
    intro c hc hin
    rcases mem_cons.mp hin with rfl | hin
    · exact (nodup_append.mp hnodup).2.2 c hc c mem_cons_self rfl
    · exact hapart c (mem_append_left _ hc) hin
  have hsplit : ∀ c, c ∈ before ++ [last] ++ clusters ↔ c ∈ before ∨ c ∈ last :: clusters := by
    intro c
    rw [append_assoc, mem_append]
    rfl
  have hseg : Seg (link fatData') (before ++ [last] ++ clusters).head?
      (before ++ [last] ++ clusters) none := by
    obtain ⟨hne, hold⟩ := h.linked _ mem_cons_self
    have hend :
      Seg (link fatData) (before ++ [last]).head? (before ++ last :: ([] ++ [])) none := hold
    have hnew := hend.splice (fun c hc => link_congr (hgrown.same c not_mem_nil (hbefore c hc)))
        (fun _ hc => nomatch hc) hgrown.seg.2
    rw [append_nil clusters] at hnew
    rw [List.head?_append_of_ne_nil _ hne, append_assoc]
    exact hnew
  have hrewired : Rewired fatData fatData' (before ++ [last]) (before ++ [last] ++ clusters) := by
    refine ⟨hgrown.length, hseg, fun c hc => ?_, fun c hin hout => ?_, fun c _ hc => ?_⟩
    · rcases (hsplit c).mp hc with hin | hin
      · rw [hgrown.same c not_mem_nil (hbefore c hin)]
        exact htaken c (mem_append_left _ hin)
      · exact hgrown.taken c hin
    · exact absurd (mem_append_left clusters hin) hout
    · exact hgrown.same c not_mem_nil fun hin => hc ((hsplit c).mpr (.inr hin))
  have hreplaced := h.replace [before ++ [last]] (append_nil _) hrewired
    (fun c hc => (mem_append.mp hc).imp_right fun hin => by
      obtain ⟨-, hlow, hhigh⟩ := h.inside_clusters hfs (hsub.subset hin)
      exact ⟨hlow, hhigh, hgrown.free c hin⟩)
    (nodup_append.mpr ⟨hnodup, (nodup_clusters fs).sublist hsub,
      fun c hin d hd heq => hapart c hin (heq ▸ hd)⟩)
  rw [if_neg (by simp)] at hreplaced
  exact hreplaced

include hfs in
theorem Chained.extend (h : Chained fs fatData (chain :: others)) (hhead : chain.head? = some head)
    (additional : ℕ) :
    ∃ fatData' chain', fs.extendChain fatData head additional = some fatData' ∧
      chain'.head? = some head ∧ Chained fs fatData' (chain' :: others) := by
  by_cases hnone : additional = 0
  · exact ⟨fatData, chain, if_pos hnone, hhead, h⟩
  have hchain := h.start hfs hhead
  obtain ⟨l, rfl⟩ : ∃ l, chain = head :: l := List.head?_eq_some_iff.mp hhead
  have hlast := lastLoop_spec ⟨rfl, hchain.seg.2⟩ hchain.inside (Nat.lt_of_succ_lt hchain.length_lt)
  have hextend : fs.extendChain fatData head additional =
      some (linkFree additional fs.clusters fatData (l.getLastD head) 0) := by
    rw [Fat32Fs.extendChain, if_neg hnone, hlast, Option.map_some]
  obtain ⟨before, hsplit⟩ := LinkedList.exists_split_getLastD head l
  have hsplit := hsplit []
  rw [append_nil] at hsplit
  generalize l.getLastD head = last at hextend hsplit
  have hmem : last ∈ head :: l := hsplit ▸ mem_append_right before mem_cons_self
  rcases linkFree_spec additional 0 (nodup_clusters fs) (fun _ => hchain.taken hmem)
    (hchain.inside _ hmem).2.2 (fun c hc => (h.inside_clusters hfs hc).1) with
    ⟨-, hsame⟩ | ⟨clusters, hsub, hgrown⟩
  · rw [hsame] at hextend
    exact ⟨fatData, head :: l, hextend, rfl, h⟩
  · rw [hsplit] at h
    refine ⟨_, before ++ [last] ++ clusters, hextend, ?_, h.grow hfs hsub hgrown⟩
    rw [← hsplit]
    rfl

end Operations

variable {fs : Fat32Fs} {st : State}

theorem Intact.split {head : ℕ} (h : Intact fs st) (hhead : head ∈ st.heads) :
    ∃ chain others, chain.head? = some head ∧
      (others.map head?).Perm ((st.heads.erase head).map some) ∧
      Chained fs st.fatData (chain :: others) := by
  obtain ⟨chains, hperm, hchained⟩ := h
  obtain ⟨chain, hchain, heq⟩ :=
    mem_map.mp (hperm.mem_iff.mpr (mem_map.mpr ⟨head, hhead, rfl⟩))
  have hsplit := perm_cons_erase hchain
  refine ⟨chain, chains.erase chain, heq, ?_, hchained.perm hsplit⟩
  have hheads : (chain.head? :: (chains.erase chain).map head?).Perm
      (some head :: (st.heads.erase head).map some) :=
    (hsplit.symm.map head?).trans (hperm.trans ((perm_cons_erase hhead).map some))
  rw [heq] at hheads
  exact hheads.cons_inv

theorem Intact.step {op : Op} (hfs : fs.totalClusters.toNat ≤ fat32Eof)
    (h : Intact fs st) (hlive : op.Live st) : ∃ st', step fs st op = some st' ∧ Intact fs st' := by
  cases op with
  | allocate count =>
    obtain ⟨chains, hperm, hchained⟩ := h
    obtain ⟨added, hadded, hnew⟩ := hchained.allocate hfs count
    refine ⟨_, rfl, added ++ chains, ?_, hnew⟩
    rw [map_append, map_append, hadded]
    exact hperm.append_left _
  | extend head additional =>
    obtain ⟨chain, others, hhead, hothers, hchained⟩ := h.split hlive
    obtain ⟨fatData', chain', heq, hhead', hnew⟩ := hchained.extend hfs hhead additional
    refine ⟨{ st with fatData := fatData' }, by rw [Fat.step, heq]; rfl, chain' :: others, ?_, hnew⟩
    rw [map_cons, hhead']
    exact (hothers.cons _).trans ((perm_cons_erase hlive).map some).symm
  | truncate head newCount =>
    obtain ⟨chain, others, hhead, hothers, hchained⟩ := h.split hlive
    obtain ⟨fatData', heq, hnew⟩ := hchained.truncate hfs hhead newCount
    refine ⟨_, by rw [Fat.step, heq]; rfl, _, ?_, hnew⟩
    split_ifs with hzero
    · exact hothers
    · rw [map_cons, List.head?_take, if_neg hzero, hhead]
      exact (hothers.cons _).trans ((perm_cons_erase hlive).map some).symm
  | free head =>
    obtain ⟨chain, others, hhead, hothers, hchained⟩ := h.split hlive
    obtain ⟨fatData', heq, hnew⟩ := hchained.free hfs hhead
    exact ⟨_, by rw [Fat.step, heq]; rfl, others, hothers, hnew⟩

/-- From every intact table, every run of operations on chains in use returns and leaves the table
intact. -/
def KeepsIntact (fs : Fat32Fs) : Prop :=
  ∀ (st : State) (ops : List Op), Intact fs st → LiveAlong fs st ops →
    ∃ st', exec fs st ops = some st' ∧ Intact fs st'

theorem keepsIntact_of_le (hfs : fs.totalClusters.toNat ≤ fat32Eof) : KeepsIntact fs := by
  intro st ops h hlive
  induction ops generalizing st with
  | nil => exact ⟨st, rfl, h⟩
  | cons op ops ih =>
    obtain ⟨hop, hrest⟩ := hlive
    obtain ⟨st₁, hstep, hintact⟩ := h.step hfs hop
    obtain ⟨st', hexec, hresult⟩ := ih st₁ hintact (hrest st₁ hstep)
    exact ⟨st', by rw [exec, hstep]; exact hexec, hresult⟩

section Oversized

variable (fs : Fat32Fs)

/-- An empty table but for one chain of one cluster, whose number also marks an end of chain. -/
def lastCluster : State :=
  { fatData := writeFatEntry (List.replicate (4 * fs.totalClusters.toNat) 0) fat32Eof fat32Eof
    heads := [fat32Eof] }

theorem read_replicate {n c : ℕ} (h : c * 4 + 4 ≤ n) :
    readFatEntry (replicate n 0) c = fat32Free := by
  have hzero : ∀ k, Bytes.ofLe (replicate k 0) = 0 := by
    intro k
    induction k with
    | zero => rfl
    | succ k ih => rw [replicate_succ, Bytes.ofLe, ih]; rfl
  have hlong : ¬ (replicate n (0 : BitVec 8)).length < c * 4 + 4 := by
    rw [length_replicate]
    omega
  rw [readFatEntry, if_neg hlong, Bytes.slice, drop_replicate, take_replicate, hzero]
  exact Nat.zero_and _

variable {fs} (hfs : fat32Eof < fs.totalClusters.toNat)

include hfs in
theorem read_lastCluster {c : ℕ} (hc : c < fs.totalClusters.toNat) :
    readFatEntry (lastCluster fs).fatData c = if c = fat32Eof then fat32Eof else fat32Free := by
  split_ifs with heq
  · subst heq
    refine read_write_of_lt ?_ (by decide)
    rw [length_replicate]
    omega
  · rw [lastCluster, read_write_of_ne heq]
    exact read_replicate (by omega)

include hfs in
theorem intact_lastCluster : Intact fs (lastCluster fs) := by
  have hread := read_lastCluster hfs hfs
  rw [if_pos rfl] at hread
  refine ⟨[[fat32Eof]], Perm.refl _, ?_, ?_, nodup_singleton _, ?_⟩
  · rw [lastCluster, length_writeFatEntry, length_replicate]
  · intro chain hchain
    rw [mem_singleton.mp hchain]
    refine ⟨cons_ne_nil _ _, rfl, ?_⟩
    rw [link, hread]
    rfl
  · intro c
    have hflat : c ∈ [[fat32Eof]].flatten ↔ c = fat32Eof := mem_singleton
    rw [hflat]
    constructor
    · rintro rfl
      exact ⟨by decide, hfs, by rw [hread]; decide⟩
    · rintro ⟨-, hlt, hused⟩
      by_contra hne
      rw [read_lastCluster hfs hlt, if_neg hne] at hused
      exact hused rfl

include hfs in
theorem step_free_lastCluster :
    step fs (lastCluster fs) (.free fat32Eof) = some { lastCluster fs with heads := [] } ∧
      ¬ Intact fs { lastCluster fs with heads := [] } := by
  constructor
  · have hdone := freeStep_of_isEof (lastCluster fs).fatData (Nat.le_refl fat32Eof)
    have hfree : freeClusters (lastCluster fs).fatData fat32Eof = some (lastCluster fs).fatData :=
      Loop.run_done hdone (Nat.succ_pos _)
    rw [step, hfree]
    rfl
  · rintro ⟨chains, hperm, hchained⟩
    obtain rfl : chains = [] := map_eq_nil_iff.mp (Perm.eq_nil hperm)
    have hread := read_lastCluster hfs hfs
    rw [if_pos rfl] at hread
    have hlost := (hchained.covers fat32Eof).mpr ⟨by decide, hfs, by rw [hread]; decide⟩
    cases hlost

end Oversized

/-- The operations keep every table of a volume intact exactly when no cluster number of the volume
marks an end of chain. -/
theorem keepsIntact_iff (fs : Fat32Fs) : KeepsIntact fs ↔ fs.totalClusters.toNat ≤ fat32Eof := by
  refine ⟨fun hkeeps => ?_, keepsIntact_of_le⟩
  by_contra hfs
  have hfs := Nat.lt_of_not_le hfs
  obtain ⟨hstep, hlost⟩ := step_free_lastCluster hfs
  obtain ⟨st', hexec, hintact⟩ := hkeeps (lastCluster fs) [.free fat32Eof] (intact_lastCluster hfs)
    ⟨mem_cons_self, fun _ _ => trivial⟩
  cases hexec
  exact hlost hintact

/-- A volume with one cluster too many: freeing its last chain leaks the cluster. -/
theorem free_leaks_last_cluster :
    Intact ⟨0x0FFFFFF9⟩ (lastCluster ⟨0x0FFFFFF9⟩) ∧
    (Op.free fat32Eof).Live (lastCluster ⟨0x0FFFFFF9⟩) ∧
    ∃ st', step ⟨0x0FFFFFF9⟩ (lastCluster ⟨0x0FFFFFF9⟩) (.free fat32Eof) = some st' ∧
      ¬ Intact ⟨0x0FFFFFF9⟩ st' := by
  have hfs : fat32Eof < (Fat32Fs.mk 0x0FFFFFF9).totalClusters.toNat := by decide
  exact ⟨intact_lastCluster hfs, mem_cons_self, _, step_free_lastCluster hfs⟩

end EchOS.Fs.Fat
