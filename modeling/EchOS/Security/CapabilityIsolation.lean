import EchOS.Security.Capability

/-! Handles and capabilities of a table name each other as long as every new entry gets an id and
a handle that the table does not use yet. A transfer keeps the id of the source table, so it is
here that the receiver's own entries are at stake. -/

namespace EchOS.Security

open Option

namespace CapabilityTable

open Table

def HandlesResolve (t : CapabilityTable) : Prop :=
  ∀ handle ∈ t.handles, ∃ cap, t.getByHandle handle = some cap ∧ cap.userHandle = handle

/-- Handles and capabilities name each other. -/
structure Linked (t : CapabilityTable) : Prop where
  handle : ∀ handle id, t.handles.lookup handle = some id →
    ∃ cap, t.capabilities.lookup id = some cap ∧ cap.userHandle = handle
  capability : ∀ id cap, t.capabilities.lookup id = some cap →
    cap.id = id ∧ t.handles.lookup cap.userHandle = some id

def Spare (t : CapabilityTable) (id : CapId) : Prop :=
  id ∉ t.capabilities ∧ t.freshHandle ∉ t.handles

instance (t : CapabilityTable) (id : CapId) : Decidable (t.Spare id) :=
  inferInstanceAs (Decidable (_ ∧ _))

variable {t : CapabilityTable}

variable {id : CapId} {cap : Capability}

theorem getByHandle_of_lookup {handle : UserHandle} (h : t.handles.lookup handle = some id) :
    t.getByHandle handle = t.get id := by
  show (t.handles.lookup handle).bind _ = _
  rw [h]
  rfl

theorem linked_new (pid : Pid) : Linked (new pid) := by
  constructor
  · exact fun handle id h => nomatch h
  · exact fun id cap h => nomatch h

section

variable (h : Linked t) {cap' : Capability}
include h

theorem Linked.handlesResolve : t.HandlesResolve := by
  intro handle hmem
  obtain ⟨id, hid⟩ := mem_iff_exists.mp hmem
  obtain ⟨cap, hcap, hhandle⟩ := h.handle handle id hid
  rw [getByHandle_of_lookup hid]
  exact ⟨cap, hcap, hhandle⟩

theorem Linked.id_eq {id' : CapId} (hcap : t.capabilities.lookup id = some cap)
    (hcap' : t.capabilities.lookup id' = some cap') (hsame : cap'.userHandle = cap.userHandle) :
    id' = id := by
  have hid := (h.capability id cap hcap).2
  have hid' := (h.capability id' cap' hcap').2
  rw [hsame, hid] at hid'
  exact (some.inj hid').symm

theorem Linked.store {handle : UserHandle} (hid : id ∉ t.capabilities)
    (hhandle : handle ∉ t.handles) (hcapId : cap.id = id) (hcapHandle : cap.userHandle = handle) :
    Linked (t.store handle id cap) := by
  constructor
  · intro handle' id' hlookup
    have hins : (AList.insert handle id t.handles).lookup handle' = some id' := hlookup
    show ∃ cap', (AList.insert id cap t.capabilities).lookup id' = some cap' ∧ _
    rw [lookup_insert_eq] at hins
    rw [lookup_insert_eq]
    split_ifs at hins with hnew
    · cases hins
      rw [if_pos rfl]
      exact ⟨cap, rfl, hcapHandle.trans hnew.symm⟩
    · obtain ⟨cap', hcap', hhandle'⟩ := h.handle handle' id' hins
      have hne : id' ≠ id := by
        rintro rfl
        exact hid (mem_iff_exists.mpr ⟨cap', hcap'⟩)
      rw [if_neg hne]
      exact ⟨cap', hcap', hhandle'⟩
  · intro id' cap' hlookup
    have hins : (AList.insert id cap t.capabilities).lookup id' = some cap' := hlookup
    show _ ∧ (AList.insert handle id t.handles).lookup cap'.userHandle = some id'
    rw [lookup_insert_eq] at hins
    rw [lookup_insert_eq]
    split_ifs at hins with hnew
    · cases hins
      rw [if_pos hcapHandle, hnew]
      exact ⟨hcapId, rfl⟩
    · obtain ⟨hid', hhandle'⟩ := h.capability id' cap' hins
      have hne : cap'.userHandle ≠ handle := by
        intro hsame
        exact hhandle (mem_iff_exists.mpr ⟨id', hsame ▸ hhandle'⟩)
      rw [if_neg hne]
      exact ⟨hid', hhandle'⟩

theorem Linked.drop (hcap : t.capabilities.lookup id = some cap) : Linked (t.drop id cap) := by
  constructor
  · intro handle' id' hlookup
    have herase : (AList.erase cap.userHandle t.handles).lookup handle' = some id' := hlookup
    show ∃ cap', (AList.erase id t.capabilities).lookup id' = some cap' ∧ _
    rw [lookup_erase_eq] at herase
    split_ifs at herase with hgone
    obtain ⟨cap', hcap', hhandle'⟩ := h.handle handle' id' herase
    have hne : id' ≠ id := by
      rintro rfl
      obtain rfl := some.inj (hcap.symm.trans hcap')
      exact hgone hhandle'.symm
    rw [lookup_erase_eq, if_neg hne]
    exact ⟨cap', hcap', hhandle'⟩
  · intro id' cap' hlookup
    have herase : (AList.erase id t.capabilities).lookup id' = some cap' := hlookup
    show _ ∧ (AList.erase cap.userHandle t.handles).lookup cap'.userHandle = some id'
    rw [lookup_erase_eq] at herase
    split_ifs at herase with hgone
    have hne : cap'.userHandle ≠ cap.userHandle := fun hsame => hgone (h.id_eq hcap herase hsame)
    rw [lookup_erase_eq, if_neg hne]
    exact h.capability id' cap' herase

theorem Linked.amend (hcap : t.capabilities.lookup id = some cap)
    (hid : cap'.id = cap.id) (hhandle : cap'.userHandle = cap.userHandle) :
    Linked { t with capabilities := t.capabilities.insert id cap' } := by
  constructor
  · intro handle' id' hlookup
    obtain ⟨held, hheld, hhandle'⟩ := h.handle handle' id' hlookup
    rw [lookup_insert_eq]
    by_cases hsame : id' = id
    · subst hsame
      obtain rfl := some.inj (hcap.symm.trans hheld)
      rw [if_pos rfl]
      exact ⟨cap', rfl, hhandle.trans hhandle'⟩
    · rw [if_neg hsame]
      exact ⟨held, hheld, hhandle'⟩
  · intro id' held hins
    rw [lookup_insert_eq] at hins
    split_ifs at hins with hsame
    · cases hins
      obtain ⟨hcapId, hcapHandle⟩ := h.capability id cap hcap
      rw [hsame, hid, hhandle]
      exact ⟨hcapId, hcapHandle⟩
    · exact h.capability id' held hins

theorem Linked.advance (nextCapId : CapId) (nextHandle : UserHandle) :
    Linked { t with nextCapId, nextHandle } := ⟨h.handle, h.capability⟩

theorem Linked.made (g : CapTables.Grant) (hspare : t.Spare t.nextCapId) : Linked (g.made t) :=
  (h.advance _ _).store hspare.1 hspare.2 rfl rfl

theorem Linked.derive (parentId : CapId) (subsetRights : CapRights)
    (hspare : ∀ parent, t.capabilities.lookup parentId = some parent →
      subsetRights.exceeds parent.rights = false → t.Spare t.nextCapId) :
    Linked (t.derive parentId subsetRights).2 := by
  obtain hsame | ⟨parent, hparent, hrights, hderive⟩ := derive_cases t parentId subsetRights
  · rw [hsame]
    exact h
  · obtain ⟨hid, hhandle⟩ := hspare parent hparent hrights
    have hheld := mem_iff_exists.mpr ⟨parent, hparent⟩
    have hne : t.nextCapId ≠ parentId := by
      intro hsame
      exact hid (hsame ▸ hheld)
    rw [hderive]
    apply Linked.store
    · have hamend : Linked
          { t with
            capabilities := t.capabilities.insert parentId
              { parent with children := parent.children ++ [t.nextCapId] } } :=
        h.amend hparent rfl rfl
      exact hamend.advance _ _
    · show t.nextCapId ∉ AList.insert parentId _ t.capabilities
      rw [AList.mem_insert]
      exact fun hor => hor.elim hne hid
    · exact hhandle
    · rfl
    · rfl

theorem Linked.revoke (id : CapId) : Linked (t.revoke id).2 :=
  revoke_invariant id (fun _ _ _ hcap ht => ht.drop hcap) h

theorem Linked.transfer_rest (id : CapId) (targetPid : Pid) :
    Linked (t.transfer id targetPid).2 := by
  unfold transfer
  cases hcap : t.capabilities.lookup id with
  | none => exact h
  | some cap =>
    have hdrop := h.drop hcap
    dsimp only
    split_ifs
    · apply hdrop.store
      · show id ∉ AList.erase id t.capabilities
        rw [AList.mem_erase]
        exact fun hand => hand.1 rfl
      · show cap.userHandle ∉ AList.erase cap.userHandle t.handles
        rw [AList.mem_erase]
        exact fun hand => hand.1 rfl
      · exact (h.capability id cap hcap).1
      · rfl
    · exact hdrop

end

structure Received (before after : CapabilityTable) (cap : Capability) : Prop where
  kept : ∀ id held, before.get id = some held →
    after.get id = some held ∧ after.getByHandle held.userHandle = some held
  handle : ∃ handle, handle ∉ before.handles ∧
    (∀ handle', handle' ∈ after.handles ↔ handle' = handle ∨ handle' ∈ before.handles) ∧
    ∃ got, after.getByHandle handle = some got ∧ got.id = cap.id ∧
      got.resourceType = cap.resourceType ∧ got.resourceId = cap.resourceId ∧
      got.rights = cap.rights ∧ got.kind = cap.kind

theorem Linked.insertTransferred (h : Linked t) (cap : Capability) (hspare : t.Spare cap.id) :
    Linked (t.insertTransferredCapability cap).2 :=
  (h.advance t.nextCapId _).store hspare.1 hspare.2 rfl rfl

theorem Linked.received (h : Linked t) (cap : Capability) (hspare : t.Spare cap.id) :
    Received t (t.insertTransferredCapability cap).2 cap := by
  have hafter := h.insertTransferred cap hspare
  constructor
  · intro id held hheld
    have hne : id ≠ cap.id := by
      rintro rfl
      exact hspare.1 (mem_iff_exists.mpr ⟨held, hheld⟩)
    have hget : (t.insertTransferredCapability cap).2.get id = some held := by
      show (AList.insert cap.id _ t.capabilities).lookup id = some held
      rw [AList.lookup_insert_ne hne]
      exact hheld
    have hhandle := (hafter.capability id held hget).2
    rw [getByHandle_of_lookup hhandle]
    exact ⟨hget, hget⟩
  · refine ⟨t.freshHandle, hspare.2, ?_, ?_⟩
    · intro handle'
      exact AList.mem_insert t.handles
    · have hlookup : (t.insertTransferredCapability cap).2.handles.lookup t.freshHandle =
          some cap.id := AList.lookup_insert t.handles
      rw [getByHandle_of_lookup hlookup]
      exact ⟨_, AList.lookup_insert t.capabilities, rfl, rfl, rfl, rfl, rfl⟩

end CapabilityTable

namespace CapTables

open CapabilityTable

/-- The table in which an operation makes an entry, if it makes one, and the id of the entry:
the table's counter, or for a transfer the id in the source table. -/
def entryOf (tables : CapTables) : Op → Option (CapabilityTable × CapId)
  | .deriveCapability pid parentId subsetRights => do
    let parent ← (tables.processTable pid).get parentId
    if subsetRights.exceeds parent.rights then none
    else some (tables.processTable pid, (tables.processTable pid).nextCapId)
  | .transferCapability fromPid capId toPid => do
    let cap ← (tables.processTable fromPid).get capId
    if !cap.rights.transfer then none
    else if fromPid = toPid then some ((tables.processTable fromPid).drop capId cap, capId)
    else some (tables.processTable toPid, capId)
  | op => (tables.grantOf op).map fun g =>
    (tables.processTable g.pid, (tables.processTable g.pid).nextCapId)

/-- The entry that the operation makes gets an id and a handle that its table does not use. -/
def Unused (tables : CapTables) (op : Op) : Prop :=
  ∀ entry ∈ tables.entryOf op, entry.1.Spare entry.2

instance (tables : CapTables) (op : Op) : Decidable (tables.Unused op) :=
  inferInstanceAs (Decidable (∀ entry ∈ tables.entryOf op, _))

variable {tables : CapTables} {op : Op} {pid fromPid toPid : Pid}

theorem Unused.grant (h : tables.Unused op) {g : Grant} (hgrant : tables.grantOf op = some g) :
    (tables.processTable g.pid).Spare (tables.processTable g.pid).nextCapId := by
  have hentry : tables.entryOf op =
      some (tables.processTable g.pid, (tables.processTable g.pid).nextCapId) := by
    cases op with
    | deriveCapability | transferCapability => cases hgrant
    | _ => simp only [entryOf, hgrant, map_some]
  exact h _ hentry

theorem Unused.derive {parentId : CapId} {subsetRights : CapRights}
    (h : tables.Unused (.deriveCapability pid parentId subsetRights)) {parent : Capability}
    (hparent : (tables.processTable pid).capabilities.lookup parentId = some parent)
    (hrights : subsetRights.exceeds parent.rights = false) :
    (tables.processTable pid).Spare (tables.processTable pid).nextCapId := by
  have hget : (tables.processTable pid).get parentId = some parent := hparent
  have hentry : tables.entryOf (.deriveCapability pid parentId subsetRights) =
      some (tables.processTable pid, (tables.processTable pid).nextCapId) := by
    simp [entryOf, hget, hrights]
  exact h _ hentry

variable {capId : CapId} {held : Capability}

theorem Unused.receive
    (h : tables.Unused (.transferCapability fromPid capId toPid)) (hother : fromPid ≠ toPid)
    (hheld : (tables.processTable fromPid).capabilities.lookup capId = some held)
    (hright : held.rights.transfer) : (tables.processTable toPid).Spare capId := by
  have hget : (tables.processTable fromPid).get capId = some held := hheld
  have hentry : tables.entryOf (.transferCapability fromPid capId toPid) =
      some (tables.processTable toPid, capId) := by
    simp [entryOf, hget, hright, hother]
  exact h _ hentry

theorem Unused.take_back (h : tables.Unused (.transferCapability pid capId pid))
    (hheld : (tables.processTable pid).capabilities.lookup capId = some held)
    (hright : held.rights.transfer) : ((tables.processTable pid).drop capId held).Spare capId := by
  have hget : (tables.processTable pid).get capId = some held := hheld
  have hentry : tables.entryOf (.transferCapability pid capId pid) =
      some ((tables.processTable pid).drop capId held, capId) := by
    simp [entryOf, hget, hright]
  exact h _ hentry

def AllLinked (tables : CapTables) : Prop := ∀ pid, (tables.processTable pid).Linked

theorem AllLinked.step (h : tables.AllLinked) (hunused : tables.Unused op) :
    (tables.step op).AllLinked := by
  refine forall_processTable_step (I := fun _ t => t.Linked) ?_ ?_
  · exact fun pid => linked_new pid
  · intro pid t' hchange
    cases hchange with
    | kept => exact h pid
    | created g hgrant hpid =>
      subst hpid
      exact (h g.pid).made g (hunused.grant hgrant)
    | derived parentId subsetRights hop =>
      subst hop
      apply (h pid).derive
      intro parent hparent hrights
      exact hunused.derive hparent hrights
    | revoked capId => exact (h pid).revoke capId
    | released capId toPid hop => exact (h pid).transfer_rest capId toPid
    | received fromPid capId cap hop hother hcap =>
      subst hop
      obtain ⟨held, hheld, hright, rfl⟩ := transfer_eq_some hcap
      have hid : held.id = capId := ((h fromPid).capability capId held hheld).1
      have hspare := hunused.receive hother hheld hright
      rw [← hid] at hspare
      exact (h pid).insertTransferred _ hspare
    | returned capId cap hop hcap =>
      subst hop
      obtain ⟨held, hheld, hright, rfl⟩ := transfer_eq_some hcap
      have hid : held.id = capId := ((h pid).capability capId held hheld).1
      have hspare := hunused.take_back hheld hright
      simp only [transfer, hheld, hright]
      rw [← hid] at hspare ⊢
      rw [← hid] at hheld
      exact ((h pid).drop hheld).insertTransferred _ hspare

theorem processTable_transfer (hother : fromPid ≠ toPid)
    (hok : (tables.transferCapability fromPid capId toPid).1 = true) :
    ∃ cap, ((tables.processTable fromPid).transfer capId toPid).1 = some cap ∧
      (tables.step (.transferCapability fromPid capId toPid)).processTable toPid =
        ((tables.processTable toPid).insertTransferredCapability cap).2 := by
  show ∃ cap, _ ∧ (tables.transferCapability fromPid capId toPid).2.processTable toPid = _
  unfold transferCapability at hok ⊢
  cases ht : tables.lookup fromPid with
  | none =>
    rw [ht] at hok
    cases hok
  | some t =>
    obtain rfl : tables.processTable fromPid = t := processTable_of_lookup ht
    rw [ht] at hok
    cases hcap : ((tables.processTable fromPid).transfer capId toPid).1 with
    | none =>
      simp only [hcap] at hok
      cases hok
    | some cap =>
      refine ⟨cap, rfl, ?_⟩
      simp only [hcap]
      rw [processTable_insert, if_pos rfl, processTable_insert, if_neg hother.symm]

/-- The receiver of a transfer keeps what it had and gets one handle for the new capability. -/
def Isolates (tables : CapTables) : Op → Prop
  | .transferCapability fromPid capId toPid =>
    fromPid ≠ toPid → (tables.transferCapability fromPid capId toPid).1 = true →
      ∃ cap, (tables.processTable fromPid).get capId = some cap ∧
        Received (tables.processTable toPid)
          ((tables.step (.transferCapability fromPid capId toPid)).processTable toPid) cap
  | _ => True

theorem AllLinked.isolates (h : tables.AllLinked) (hunused : tables.Unused op) :
    tables.Isolates op := by
  cases op with
  | transferCapability fromPid capId toPid =>
    intro hother hok
    obtain ⟨cap, hcap, hafter⟩ := processTable_transfer hother hok
    obtain ⟨held, hheld, hright, rfl⟩ := transfer_eq_some hcap
    have hid : held.id = capId := ((h fromPid).capability capId held hheld).1
    have hspare := hunused.receive hother hheld hright
    rw [← hid] at hspare
    have hreceived := (h toPid).received
      { held with owner := toPid, generation := saturatingSucc held.generation } hspare
    rw [hafter]
    exact ⟨held, hheld, hreceived.kept, hreceived.handle⟩
  | _ => trivial

theorem allLinked_empty : AllLinked ∅ := fun pid => linked_new pid

/-- In every run whose new entries get ids and handles not in use, all handles resolve to their
capabilities and every transfer leaves the receiver's capabilities alone. -/
theorem transfers_isolated (ops : List Op) (hunused : Run.Along step Unused ∅ ops) :
    (∀ pid t, (Run.exec step ∅ ops).lookup pid = some t → t.HandlesResolve) ∧
      Run.Along step Isolates ∅ ops := by
  have hkeep : ∀ tables op, AllLinked tables → Unused tables op → AllLinked (step tables op) :=
    fun _ _ h hop => h.step hop
  constructor
  · intro pid t ht
    have hlinked := hunused.invariant hkeep allLinked_empty pid
    rw [processTable_of_lookup ht] at hlinked
    exact hlinked.handlesResolve
  · exact hunused.safety hkeep (fun _ _ h hop => h.isolates hop) allLinked_empty

/-- Process 1 makes two capabilities, and process 2 one, before the second goes to process 2. -/
def idsApart : List Op :=
  [.initProcess 1, .initProcess 2, .createCapability 1 .file 10 .ALL,
    .createCapability 1 .socket 11 .ALL, .createCapability 2 .key 20 .ALL,
    .transferCapability 1 2 2]

theorem transfers_isolated_idsApart :
    (Run.exec step ∅ (idsApart.take 5)).Isolates (.transferCapability 1 2 2) ∧
      ((Run.exec step ∅ (idsApart.take 5)).transferCapability 1 2 2).1 = true := by
  have hunused : Run.Along step Unused ∅ idsApart := by decide +kernel
  have hruns := (transfers_isolated idsApart hunused).2
  have hlast := (Run.along_iff_split _ _).mp hruns (idsApart.take 5) (.transferCapability 1 2 2)
  exact ⟨hlast [] rfl, by decide +kernel⟩

/-- Processes 1 and 2 have each made a capability: both have the id 1. -/
def idsShared : CapTables :=
  Run.exec step ∅
    [.initProcess 1, .initProcess 2, .createCapability 1 .file 10 .ALL,
      .createCapability 2 .key 20 .ALL]

/-- Once process 1 transferred its file, the handle that process 2 had for its key resolves to
the file, and the key is gone. -/
theorem transfer_replaces_capability :
    (idsShared.transferCapability 1 1 2).1 = true ∧
      ¬idsShared.Isolates (.transferCapability 1 1 2) ∧
      ¬((idsShared.step (.transferCapability 1 1 2)).processTable 2).HandlesResolve := by
  have hok : (idsShared.transferCapability 1 1 2).1 = true := by decide +kernel
  refine ⟨hok, fun hisolates => ?_, fun hresolve => ?_⟩
  · obtain ⟨_, _, hreceived⟩ := hisolates (by decide) hok
    obtain ⟨held, hheld, hlost⟩ : ∃ held ∈ (idsShared.processTable 2).get 1,
        ((idsShared.step (.transferCapability 1 1 2)).processTable 2).get 1 ≠ some held := by
      decide +kernel
    exact hlost (hreceived.kept 1 held hheld).1
  · obtain ⟨cap, hcap, huser⟩ := hresolve 1 (by decide +kernel)
    have hresolved : ∀ cap ∈
        ((idsShared.step (.transferCapability 1 1 2)).processTable 2).getByHandle
        1, cap.userHandle ≠ 1 := by decide +kernel
    exact hresolved cap hcap huser

end CapTables

end EchOS.Security
