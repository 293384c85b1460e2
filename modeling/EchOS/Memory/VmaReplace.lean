import EchOS.Memory.VmaInsertView

/-! Updates that put pieces in the place of a range of a VMA map: `update_flags` and
`insert_or_update`. Of the VMAs that meet the range only the last is locked and replaced. -/

namespace EchOS.Memory

open Vma List Option

variable {vmas : List Vma} {vma : Vma} {addr : ℕ} (kind : VmaKind)

theorem tidy_nil : Tidy [] := ⟨by simp, List.Pairwise.nil⟩

theorem tidy_cons :
    Tidy (vma :: vmas) ↔
      vma.start < vma.stop ∧ (∀ w ∈ vmas, vma.stop ≤ w.start) ∧ Tidy vmas := by
  constructor
  · intro h
    obtain ⟨hnext, -⟩ := pairwise_cons.mp h.sorted
    exact ⟨h.nonempty vma mem_cons_self, hnext, h.sublist (sublist_cons_self _ _)⟩
  · rintro ⟨hne, hnext, h⟩
    exact ⟨forall_mem_cons.mpr ⟨hne, h.nonempty⟩, pairwise_cons.mpr ⟨hnext, h.sorted⟩⟩

theorem tidy_append {vmas' : List Vma} :
    Tidy (vmas ++ vmas') ↔
      Tidy vmas ∧ Tidy vmas' ∧ ∀ v ∈ vmas, ∀ w ∈ vmas', v.stop ≤ w.start := by
  constructor
  · intro h
    obtain ⟨h₁, h₂, hcross⟩ := pairwise_append.mp h.sorted
    exact ⟨h.sublist (sublist_append_left _ _), h.sublist (sublist_append_right _ _),
      hcross⟩
  · rintro ⟨h₁, h₂, hcross⟩
    refine ⟨fun v hv => ?_, pairwise_append.mpr ⟨h₁.sorted, h₂.sorted, hcross⟩⟩
    rcases mem_append.mp hv with hv | hv
    · exact h₁.nonempty v hv
    · exact h₂.nonempty v hv

theorem Tidy.viewOf_eq (h : Tidy vmas) (hvma : vma ∈ vmas) (hcovers : vma.covers addr) :
    viewOf vmas addr = some (vma.viewAt addr) := by
  rw [viewOf, h.vmaAt_eq hvma hcovers, map_some]

theorem viewOf_eq_none (h : ∀ v ∈ vmas, ¬ v.covers addr) : viewOf vmas addr = none := by
  rw [viewOf, vmaAt_eq_none h, map_none]

theorem VmaKind.fileOffset_advance_eq_iff (bytes bytes' : ℕ) :
    (kind.advance bytes).fileOffset = (kind.advance bytes').fileOffset ↔
      (∃ id, kind = .anonymous id) ∨ bytes = bytes' := by
  cases kind <;> simp [advance, fileOffset]

/-- The addresses of a range get other flags, and all else is as it was. -/
def Reflags (start stop : ℕ) (flags : BitVec 64) (vmas vmas' : List Vma) : Prop :=
  ∀ addr, viewOf vmas' addr = (viewOf vmas addr).map fun view =>
    { view with flags := if start ≤ addr ∧ addr < stop then flags else view.flags }

section

variable {start stop : ℕ} {flags : BitVec 64}

theorem reflags_of_covers {vmas' : List Vma} (ht : Tidy vmas) (ht' : Tidy vmas')
    (hview : ∀ addr, ∀ v ∈ vmas, v.covers addr → ∃ v' ∈ vmas', v'.covers addr ∧ v'.viewAt addr =
      { v.viewAt addr with flags := if start ≤ addr ∧ addr < stop then flags else v.flags })
    (hback : ∀ addr, ∀ v' ∈ vmas', v'.covers addr → ∃ v ∈ vmas, v.covers addr) :
    Reflags start stop flags vmas vmas' := by
  intro addr
  by_cases hcovered : ∃ v ∈ vmas, v.covers addr
  · obtain ⟨v, hv, hcovers⟩ := hcovered
    obtain ⟨v', hv', hcovers', heq⟩ := hview addr v hv hcovers
    rw [ht.viewOf_eq hv hcovers, ht'.viewOf_eq hv' hcovers', heq]
    rfl
  · rw [viewOf_eq_none fun v hv hv' => hcovered ⟨v, hv, hv'⟩,
      viewOf_eq_none fun v hv hv' => hcovered (hback addr v hv hv'), map_none]

variable {before meeting behind : List Vma}

theorem Around.viewAt_of_stays (h : Around start stop before meeting behind)
    (hvma : vma ∈ before ++ (meeting ++ behind)) (hcovers : vma.covers addr)
    (hflags : vma ∈ meeting → vma.flags = flags) :
    vma.viewAt addr = { vma.viewAt addr with
      flags := if start ≤ addr ∧ addr < stop then flags else vma.flags } := by
  rw [covers_iff] at hcovers
  split_ifs with haddr
  · have hmeeting : vma ∈ meeting := by
      have hbefore := h.before vma
      have hbehind := h.behind vma
      simp only [mem_append] at hvma
      rcases hvma with hv | hv | hv
      · have := hbefore hv
        omega
      · exact hv
      · have := hbehind hv
        omega
    rw [← hflags hmeeting]
    rfl
  · rfl

theorem Around.reflags_of_free (h : Around start stop before [] behind) :
    Reflags start stop flags (before ++ behind) (before ++ behind) :=
  reflags_of_covers h.tidy h.tidy
    (fun _ v hv hcovers => ⟨v, hv, hcovers, h.viewAt_of_stays hv hcovers nofun⟩)
    fun _ v hv hcovers => ⟨v, hv, hcovers⟩

end

namespace VmaMap

def Labelled (m : VmaMap) (ids : List NodeId) : Prop :=
  ∀ x ∈ ids, (m.nodes x).start = (m.nodes x).vma.start ∧ (m.nodes x).stop = (m.nodes x).vma.stop

variable {ids : List NodeId} {m : VmaMap}

theorem Labelled.ordered (h : Labelled m ids) (ht : Tidy (m.vmas ids)) : Ordered m ids where
  start_eq x hx := (h x hx).1
  stop_eq x hx := (h x hx).2
  nonempty x hx := by
    rw [(h x hx).1, (h x hx).2]
    exact ht.nonempty _ (mem_map_of_mem hx)
  sorted := (pairwise_map.mp ht.sorted).imp_of_mem fun {x y} hx hy hxy => by
    rwa [(h x hx).2, (h y hy).1]

theorem Ordered.labelled (h : Ordered m ids) : Labelled m ids :=
  fun x hx => ⟨h.start_eq x hx, h.stop_eq x hx⟩

theorem Labelled.extends {m' : VmaMap} (h : Labelled m ids)
    (he : Extends m m') (hold : ∀ x ∈ ids, x < m.fresh) : Labelled m' ids := by
  intro x hx
  rw [he.start x (hold x hx), he.stop x (hold x hx), he.vma x (hold x hx)]
  exact h x hx

structure Allocated (m m' : VmaMap) (new : List NodeId) (vmas : List Vma) : Prop where
  grown : Grown m m'
  nodup : new.Nodup
  fresh : ∀ x ∈ new, m.fresh ≤ x ∧ x < m'.fresh
  node : ∀ x ∈ new, ∃ vma height, 0 < height ∧ m'.nodes x = Node.new vma height
  vmas : m'.vmas new = vmas

theorem allocAll_cons (m : VmaMap) (seed : BitVec 64) (vma : Vma) (vmas : List Vma) :
    m.allocAll seed (vma :: vmas) =
      (m.fresh :: ((m.alloc vma (randomHeight seed).1).2.allocAll (randomHeight seed).2 vmas).1,
        ((m.alloc vma (randomHeight seed).1).2.allocAll (randomHeight seed).2 vmas).2) := by
  rfl

theorem allocAll_spec (m : VmaMap) (seed : BitVec 64) (vmas : List Vma) :
    Allocated m (m.allocAll seed vmas).2 (m.allocAll seed vmas).1 vmas := by
  induction vmas generalizing m seed with
  | nil => exact ⟨Grown.refl m, nodup_nil, by simp [allocAll], by simp [allocAll], rfl⟩
  | cons vma vmas ih =>
    have hpos := randomHeight_pos seed
    have hgrown := Grown.alloc m vma (randomHeight seed).1
    have hnode := alloc_node m vma (randomHeight seed).1
    have hlt : m.fresh < (m.alloc vma (randomHeight seed).1).2.fresh := Nat.lt_succ_self m.fresh
    have hrest := ih (m.alloc vma (randomHeight seed).1).2 (randomHeight seed).2
    rw [allocAll_cons]
    generalize (m.alloc vma (randomHeight seed).1).2 = m₁ at hgrown hnode hlt hrest ⊢
    generalize m₁.allocAll (randomHeight seed).2 vmas = rest at hrest ⊢
    have hnode₂ : rest.2.nodes m.fresh = Node.new vma (randomHeight seed).1 :=
      (hrest.grown.nodes m.fresh hlt).trans hnode
    refine ⟨hgrown.trans hrest.grown, nodup_cons.mpr ⟨fun hin => ?_, hrest.nodup⟩, ?_, ?_, ?_⟩
    · exact Nat.not_lt.mpr (hrest.fresh _ hin).1 hlt
    · rintro y (_ | ⟨_, hy⟩)
      · exact ⟨Nat.le_refl _, Nat.lt_of_lt_of_le hlt hrest.grown.fresh⟩
      · exact ⟨Nat.le_trans (Nat.le_of_lt hlt) (hrest.fresh y hy).1, (hrest.fresh y hy).2⟩
    · rintro y (_ | ⟨_, hy⟩)
      · exact ⟨vma, (randomHeight seed).1, hpos, hnode₂⟩
      · exact hrest.node y hy
    · rw [vmas_cons, hnode₂, hrest.vmas]
      rfl

section

variable {m : VmaMap} {levels : ℕ → List NodeId} {start stop : ℕ}
  {before meeting behind : List NodeId}

theorem Settled.replaceInterval (h : Settled m levels)
    (hzero : levels 0 = before ++ (meeting ++ behind))
    (hr : Range m start stop before meeting behind) (hlt : start < stop) (seed : BitVec 64)
    (pieces : List Node → List Vma) :
    ∃ locked m' levels', Frame m locked ∧
      m.replaceInterval seed start stop pieces = some m' ∧ Sound m' levels' [] ∧
      Labelled m' (levels' 0) ∧
      m'.vmas (levels' 0) = m.vmas before ++ (m.vmas meeting.dropLast ++
        (pieces (meeting.getLast?.toList.map locked.nodes) ++ m.vmas behind)) := by
  obtain ⟨m₁, hlock, hwrites, -, hsound₁⟩ := h.sound.lockInterval hzero h.ordered hr hlt
  have hframe₁ := hwrites.frame
  have hold : ∀ x ∈ levels 0, x < m₁.fresh :=
    fun x hx => hsound₁.leveled.lt_fresh (mem_cons_of_mem head hx)
  have halloc := allocAll_spec m₁ seed (pieces (meeting.getLast?.toList.map m₁.nodes))
  unfold VmaMap.replaceInterval
  rw [hlock, bind_eq_bind, bind_some]
  dsimp only
  rw [tail_cons]
  generalize m₁.allocAll seed (pieces (meeting.getLast?.toList.map m₁.nodes)) = allocated
    at halloc ⊢
  obtain ⟨new, m₂⟩ := allocated
  have hspare : ∀ y ∈ new, Spare m₂ levels y := by
    intro y hy
    obtain ⟨vma, height, hpos, hnode⟩ := halloc.node y hy
    exact hsound₁.spare halloc.grown (halloc.fresh y hy).1 (halloc.fresh y hy).2 hnode hpos
  obtain ⟨m₃, hswap, hframe₃, hsound₃⟩ :=
    (hsound₁.grown halloc.grown).swapInterval hzero halloc.nodup hspare
  have hext : Extends m₁ m₃ := halloc.grown.toExtends.trans hframe₃.extends
  refine ⟨m₁, m₃, _, hframe₁, hswap, hsound₃, ?_, ?_⟩
  · change Labelled m₃ (before ++ (meeting.dropLast ++ (new ++ behind)))
    have hkept := (h.ordered.frame hframe₁).labelled.extends hext hold
    intro x hx
    by_cases hxn : x ∈ new
    · obtain ⟨vma, height, -, hnode⟩ := halloc.node x hxn
      rw [hframe₃.start, hframe₃.stop, hframe₃.vma, hnode]
      exact ⟨rfl, rfl⟩
    · refine hkept x ?_
      rw [hzero]
      simp only [mem_append] at hx ⊢
      rcases hx with hx | hx | hx | hx
      · exact .inl hx
      · exact .inr (.inl ((dropLast_sublist meeting).subset hx))
      · exact absurd hx hxn
      · exact .inr (.inr hx)
  · change m₃.vmas (before ++ (meeting.dropLast ++ (new ++ behind))) = _
    have hvmas : ∀ ids, (∀ x ∈ ids, x ∈ levels 0) → m₃.vmas ids = m.vmas ids := by
      intro ids hids
      rw [hext.vmas fun x hx => hold x (hids x hx), hframe₁.vmas]
    have hnew : m₃.vmas new = pieces (meeting.getLast?.toList.map m₁.nodes) := by
      rw [hframe₃.vmas, halloc.vmas]
    have hbefore := hvmas before fun x hx => by simp [hzero, hx]
    have hmeeting := hvmas meeting.dropLast fun x hx => by
      simp [hzero, (dropLast_sublist meeting).subset hx]
    have hbehind := hvmas behind fun x hx => by simp [hzero, hx]
    rw [vmas_append, vmas_append, vmas_append, hnew, hbefore, hmeeting, hbehind]

end

/-- Where the piece begins that has an address. -/
def cutStart (start stop : ℕ) (vma : Vma) (addr : ℕ) : ℕ :=
  if addr < start then vma.start else if addr < stop then max vma.start start else stop

section

variable {start stop : ℕ} (flags : BitVec 64) {n : Node}

section

variable (hstart : n.start = n.vma.start) (hstop : n.stop = n.vma.stop)
  (hmeets : n.vma.start < stop ∧ start < n.vma.stop) (hne : n.vma.start < n.vma.stop)
  (hlt : start < stop)
include hstart hstop hmeets hne hlt

theorem flagPieces_eq :
    flagPieces start stop flags n =
      (if n.vma.start < start then [{ n.vma with stop := start }] else []) ++
        ({ n.vma with start := max n.vma.start start, stop := min n.vma.stop stop, flags } ::
          if stop < n.vma.stop then [{ n.vma with start := stop }] else []) := by
  have hmid : max n.vma.start start < min n.vma.stop stop := by omega
  unfold flagPieces leftPiece midPiece rightPiece
  rw [hstart, hstop]
  simp only [hmid, if_true, singleton_append]

theorem flagPieces_tidy :
    Tidy (flagPieces start stop flags n) ∧
      ∀ p ∈ flagPieces start stop flags n, n.vma.start ≤ p.start ∧ p.stop ≤ n.vma.stop := by
  rw [flagPieces_eq flags hstart hstop hmeets hne hlt]
  by_cases hleft : n.vma.start < start <;> by_cases hright : stop < n.vma.stop <;>
    simp only [hleft, hright, if_true, if_false, nil_append, singleton_append, tidy_cons,
      tidy_nil, forall_mem_cons, not_mem_nil, false_implies, implies_true, and_true,
      true_and] <;>
    omega

theorem flagPieces_at {addr : ℕ} (hcovers : n.vma.covers addr) :
    ∃ p ∈ flagPieces start stop flags n, p.covers addr ∧ p.viewAt addr =
      { n.vma.viewAt addr with
        flags := if start ≤ addr ∧ addr < stop then flags else n.vma.flags
        fileOffset :=
          (n.vma.kind.advance (addr - cutStart start stop n.vma addr)).fileOffset } := by
  rw [flagPieces_eq flags hstart hstop hmeets hne hlt]
  rw [covers_iff] at hcovers
  unfold cutStart
  by_cases hleft : addr < start
  · -- the piece before the range
    refine ⟨{ n.vma with stop := start }, ?_, ?_, ?_⟩
    · rw [if_pos (by omega)]
      exact mem_append_left _ (mem_singleton.mpr rfl)
    · rw [covers_iff]
      exact ⟨hcovers.1, hleft⟩
    · rw [if_pos hleft, if_neg (by omega)]
      rfl
  · by_cases hright : addr < stop
    · -- the piece in the range
      refine ⟨{ n.vma with
        start := max n.vma.start start, stop := min n.vma.stop stop, flags := flags }, ?_, ?_, ?_⟩
      · exact mem_append_right _ mem_cons_self
      · rw [covers_iff]
        change max n.vma.start start ≤ addr ∧ addr < min n.vma.stop stop
        omega
      · rw [if_neg hleft, if_pos hright, if_pos ⟨by omega, hright⟩]
        simp only [viewAt, mappingAt, Mapping.view, VmaKind.identity_advance]
    · -- the piece behind the range
      refine ⟨{ n.vma with start := stop }, ?_, ?_, ?_⟩
      · rw [if_pos (show stop < n.vma.stop by omega)]
        exact mem_append_right _ (mem_cons_of_mem _ (mem_singleton.mpr rfl))
      · rw [covers_iff]
        exact ⟨Nat.not_lt.mp hright, hcovers.2⟩
      · rw [if_neg hleft, if_neg hright, if_neg fun h => hright h.2]
        simp only [viewAt, mappingAt, Mapping.view, VmaKind.identity_advance]

end

section

variable {before kept behind : List Vma} (h : Around start stop before (kept ++ [n.vma]) behind)
  (hstart : n.start = n.vma.start) (hstop : n.stop = n.vma.stop) (hlt : start < stop)
include h hstart hstop hlt

theorem tidy_flagPieces : Tidy (before ++ (kept ++ (flagPieces start stop flags n ++ behind))) := by
  have hmeets := h.meeting n.vma (by simp)
  have hne := h.tidy.nonempty n.vma (by simp)
  obtain ⟨hpieces, hinside⟩ := flagPieces_tidy flags hstart hstop hmeets hne hlt
  have hall := h.tidy
  rw [append_assoc, tidy_append, tidy_append, tidy_append] at hall
  obtain ⟨hbefore, ⟨hkept, ⟨-, hbehind, hw⟩, hkw⟩, hcross⟩ := hall
  rw [tidy_append, tidy_append, tidy_append]
  refine ⟨hbefore, ⟨hkept, ⟨hpieces, hbehind, fun p hp v hv => ?_⟩, fun k hk v hv => ?_⟩,
    fun b hb v hv => ?_⟩
  · exact Nat.le_trans (hinside p hp).2 (hw n.vma (mem_singleton.mpr rfl) v hv)
  · rcases mem_append.mp hv with hv | hv
    · exact Nat.le_trans (hkw k hk n.vma (by simp)) (hinside v hv).1
    · exact hkw k hk v (mem_append_right _ hv)
  · rcases mem_append.mp hv with hv | hv
    · exact hcross b hb v (mem_append_left _ hv)
    · rcases mem_append.mp hv with hv | hv
      · exact Nat.le_trans (hcross b hb n.vma (by simp)) (hinside v hv).1
      · exact hcross b hb v (by simp [hv])

theorem reflags_flagPieces_iff :
    Reflags start stop flags (before ++ (kept ++ [n.vma] ++ behind))
        (before ++ (kept ++ (flagPieces start stop flags n ++ behind))) ↔
      (∀ v ∈ kept, v.flags = flags) ∧
        ((∃ id, n.vma.kind = .anonymous id) ∨ start ≤ n.vma.start ∧ n.vma.stop ≤ stop) := by
  have hmeets := h.meeting n.vma (by simp)
  have hne := h.tidy.nonempty n.vma (by simp)
  have htidy' := tidy_flagPieces flags h hstart hstop hlt
  obtain ⟨-, hinside⟩ := flagPieces_tidy flags hstart hstop hmeets hne hlt
  refine ⟨fun hreflags => ⟨fun v hv => ?_, ?_⟩, fun ⟨hflags, hwhole⟩ =>
    reflags_of_covers h.tidy htidy' (fun addr v hv hcovers => ?_) fun addr v hv hcovers => ?_⟩
  · -- a VMA that stays keeps its flags
    have hv' := h.meeting v (by simp [hv])
    have hvne := h.tidy.nonempty v (by simp [hv])
    have hcovers : v.covers (max v.start start) := by
      rw [covers_iff]
      omega
    have hflags := hreflags (max v.start start)
    rw [h.tidy.viewOf_eq (by simp [hv]) hcovers, htidy'.viewOf_eq (by simp [hv]) hcovers,
      map_some, if_pos (by omega)] at hflags
    exact congrArg View.flags (some.inj hflags)
  · -- a piece that does not begin where the VMA did has another offset
    refine or_iff_not_imp_left.mpr fun hkind => ?_
    have hsame : ∀ addr, n.vma.covers addr →
        addr - cutStart start stop n.vma addr = addr - n.vma.start := by
      intro addr hcovers
      obtain ⟨p, hp, hcovers', hview⟩ :=
        flagPieces_at flags hstart hstop hmeets hne hlt hcovers
      have heq := hreflags addr
      rw [h.tidy.viewOf_eq (by simp) hcovers, htidy'.viewOf_eq (by simp [hp]) hcovers',
        hview] at heq
      exact ((VmaKind.fileOffset_advance_eq_iff _ _ _).mp
        (congrArg View.fileOffset (some.inj heq))).resolve_left hkind
    simp only [covers_iff, cutStart] at hsame
    constructor
    · by_contra hleft
      have := hsame start (by omega)
      rw [if_neg (by omega), if_pos hlt] at this
      omega
    · by_contra hright
      have := hsame stop (by omega)
      rw [if_neg (by omega), if_neg (by omega)] at this
      omega
  · -- the last VMA has its pieces, and the others stay
    by_cases hlast : v = n.vma
    · subst hlast
      obtain ⟨p, hp, hcovers', hview⟩ := flagPieces_at flags hstart hstop hmeets hne hlt hcovers
      have hoffset : (n.vma.kind.advance (addr - cutStart start stop n.vma addr)).fileOffset =
          (n.vma.kind.advance (addr - n.vma.start)).fileOffset := by
        refine (VmaKind.fileOffset_advance_eq_iff _ _ _).mpr (hwhole.imp_right fun hin => ?_)
        rw [covers_iff] at hcovers
        rw [cutStart, if_neg (by omega), if_pos (by omega), Nat.max_eq_left hin.1]
      rw [hoffset] at hview
      exact ⟨p, by simp [hp], hcovers', hview⟩
    · refine ⟨v, ?_, hcovers, h.viewAt_of_stays hv hcovers fun hv => hflags v ?_⟩
      · simp only [mem_append, mem_singleton, hlast, or_false] at hv ⊢
        tauto
      · simpa [hlast] using hv
  · by_cases hpiece : v ∈ flagPieces start stop flags n
    · have hin := hinside v hpiece
      rw [covers_iff] at hcovers
      exact ⟨n.vma, by simp, (covers_iff _ _).mpr (by omega)⟩
    · refine ⟨v, ?_, hcovers⟩
      simp only [mem_append, hpiece, false_or] at hv ⊢
      tauto

end

end

def UpdatesFlags (m m' : VmaMap) (start stop : ℕ) (flags : BitVec 64) : Prop :=
  ∀ addr, m'.view addr = (m.view addr).map fun found => found.map fun view =>
    { view with flags := if start ≤ addr ∧ addr < stop then flags else view.flags }

end VmaMap

def VmaKind.isAnonymous : VmaKind → Bool
  | .anonymous _ => true
  | _ => false

theorem VmaKind.isAnonymous_iff : kind.isAnonymous ↔ ∃ id, kind = .anonymous id := by
  cases kind <;> simp [isAnonymous]

namespace VmaMap

/-- Of the VMAs that meet the range all but the last have the flags, and the last lies inside
the range or has no offset to adjust. -/
def FlagsReach (vmas : List Vma) (start stop : ℕ) (flags : BitVec 64) : Prop :=
  (∀ vma ∈ (vmas.filter (·.meets start stop)).dropLast, vma.flags = flags) ∧
    ∀ vma ∈ (vmas.filter (·.meets start stop)).getLast?,
      vma.kind.isAnonymous ∨ start ≤ vma.start ∧ vma.stop ≤ stop

instance (vmas : List Vma) (start stop : ℕ) (flags : BitVec 64) :
    Decidable (FlagsReach vmas start stop flags) :=
  inferInstanceAs (Decidable (_ ∧ _))

variable {start stop : ℕ}

theorem Settled.updatesFlags_iff {m m' : VmaMap} {levels levels' : ℕ → List NodeId}
    (h : Settled m levels) (h' : Settled m' levels') {flags : BitVec 64} :
    UpdatesFlags m m' start stop flags ↔
      Reflags start stop flags (m.vmas (levels 0)) (m'.vmas (levels' 0)) := by
  refine forall_congr' fun addr => ?_
  rw [h.view_eq, h'.view_eq, map_some, some_inj]

theorem Ordered.last_of_frame {m locked : VmaMap} {before kept behind : List NodeId} {x : NodeId}
    (h : Ordered m (before ++ (kept ++ [x] ++ behind))) (hframe : Frame m locked) :
    (locked.nodes x).start = (locked.nodes x).vma.start ∧
      (locked.nodes x).stop = (locked.nodes x).vma.stop ∧
      m.vmas (kept ++ [x]) = m.vmas kept ++ [(locked.nodes x).vma] := by
  have hx : x ∈ before ++ (kept ++ [x] ++ behind) := by simp
  rw [hframe.start, hframe.stop, hframe.vma, h.start_eq x hx, h.stop_eq x hx, vmas_append]
  exact ⟨rfl, rfl, rfl⟩

theorem Settled.updateFlags {m : VmaMap} {levels : ℕ → List NodeId}
    {before meeting behind : List NodeId} (h : Settled m levels)
    (hzero : levels 0 = before ++ (meeting ++ behind))
    (hr : Range m start stop before meeting behind) (hlt : start < stop) (seed flags : BitVec 64) :
    ∃ m' levels', m.updateFlags seed start stop flags = some m' ∧ Settled m' levels' ∧
      (UpdatesFlags m m' start stop flags ↔ FlagsReach (m.vmas (levels 0)) start stop flags) := by
  obtain ⟨locked, m', levels', hframe, hreplace, hsound, hlabelled, hvmas⟩ :=
    h.replaceInterval hzero hr hlt seed fun old => old.flatMap (flagPieces start stop flags)
  obtain ⟨hordered, haround, hmet⟩ := h.range hzero hr
  have hupdate : m.updateFlags seed start stop flags = some m' := by
    rw [VmaMap.updateFlags, if_neg (Nat.not_le.mpr hlt), hreplace]
  unfold FlagsReach
  rw [hzero, hmet]
  obtain rfl | ⟨kept, x, rfl⟩ := eq_nil_or_concat' meeting
  · have hsettled : Settled m' levels' :=
      ⟨hsound, hlabelled.ordered (by rw [hvmas]; exact haround.tidy)⟩
    refine ⟨m', levels', hupdate, hsettled, ?_⟩
    rw [h.updatesFlags_iff hsettled, hvmas, hzero, vmas_append]
    exact iff_of_true haround.reflags_of_free (by simp [VmaMap.vmas])
  · obtain ⟨hstart, hstop, hlast⟩ := hordered.last_of_frame hframe
    have hcut : m'.vmas (levels' 0) = m.vmas before ++ (m.vmas kept ++
        (flagPieces start stop flags (locked.nodes x) ++ m.vmas behind)) := by
      rw [hvmas]
      simp
    rw [hlast] at haround ⊢
    have hsettled : Settled m' levels' :=
      ⟨hsound,
        hlabelled.ordered (by rw [hcut]; exact tidy_flagPieces flags haround hstart hstop hlt)⟩
    refine ⟨m', levels', hupdate, hsettled, ?_⟩
    rw [h.updatesFlags_iff hsettled, hcut, hzero, vmas_append, vmas_append, hlast,
      dropLast_concat, List.getLast?_concat]
    simp only [mem_some_iff, forall_eq', VmaKind.isAnonymous_iff]
    exact reflags_flagPieces_iff flags haround hstart hstop hlt

/-- `update_flags` after any insertions ends, and it changes just the flags of the range when the
VMAs of the range but the last have the flags already and the last lies inside the range or is
anonymous, and in no other case. -/
theorem updateFlags_exact_iff (inserts : List (BitVec 64 × Vma)) {start stop : ℕ}
    (hlt : start < stop) (seed flags : BitVec 64) :
    ∃ m m' vmas, new.insertAll inserts = some m ∧ m.collectAll = some vmas ∧
      m.updateFlags seed start stop flags = some m' ∧
      (UpdatesFlags m m' start stop flags ↔ FlagsReach vmas start stop flags) := by
  obtain ⟨m, levels, hinserts, h⟩ := insertAll_spec inserts
  obtain ⟨before, meeting, behind, hzero, hr⟩ := h.ordered.split_range start stop
  obtain ⟨m', levels', hupdate, -, hiff⟩ := h.updateFlags hzero hr hlt seed flags
  exact ⟨m, m', _, hinserts, h.collectAll_eq, hupdate, hiff⟩

theorem updateFlags_exact_iff_page :
    0x1000 < 0x2000 ∧ ∃ m m' vmas,
      new.insertAll [(7, ⟨0x1000, 0x4000, 3, .anonymous 1, false, false, false⟩)] = some m ∧
      m.collectAll = some vmas ∧ m.updateFlags 9 0x1000 0x2000 1 = some m' ∧
      (UpdatesFlags m m' 0x1000 0x2000 1 ↔ FlagsReach vmas 0x1000 0x2000 1) :=
  ⟨by decide, updateFlags_exact_iff _ (by decide) 9 1⟩

/-- Making two VMAs read-only leaves the first writable, and making the second half of a file
mapping read-only maps it to the beginning of the file. -/
theorem updateFlags_skips_first_vma_and_moves_offset :
    (do
      let m ← new.insertAll [(7, ⟨0x1000, 0x2000, 3, .anonymous 1, false, false, false⟩),
        (9, ⟨0x3000, 0x4000, 3, .anonymous 2, false, false, false⟩)]
      let m' ← m.updateFlags 5 0x1000 0x4000 1
      return m'.view 0x1000) =
      some (some (some ⟨3, .anonymous 1, 0, false, false, false⟩)) ∧
    (do
      let m ← new.insertAll [(7, ⟨0x1000, 0x3000, 3, .file 5 0 0x2000, false, false, false⟩)]
      let m' ← m.updateFlags 5 0x2000 0x3000 1
      return (m.view 0x2000, m'.view 0x2000)) =
      some (some (some ⟨3, .file 5, 0x1000, false, false, false⟩),
        some (some ⟨1, .file 5, 0, false, false, false⟩)) := by
  decide +kernel

end VmaMap

end EchOS.Memory
