import EchOS.Lib.Table
import EchOS.Lib.Run

/-! The capability tables of `security/capability.rs`: what each process holds, the handles its
user side sees, and the operations on the table of every process. -/

namespace EchOS.Security

open Option Table

abbrev CapId := UInt64
abbrev UserHandle := UInt32
abbrev Pid := UInt64

structure CapRights where
  read : Bool
  write : Bool
  execute : Bool
  share : Bool
  transfer : Bool
  deriving DecidableEq

namespace CapRights

def READ : CapRights := ⟨true, false, false, false, false⟩
def READ_WRITE : CapRights := ⟨true, true, false, false, false⟩
def ALL : CapRights := ⟨true, true, true, true, true⟩

/-- Some right of `required` is missing in `granted`: the chain of checks in `derive`. -/
def exceeds (required granted : CapRights) : Bool :=
  required.read && !granted.read || required.write && !granted.write ||
    required.execute && !granted.execute || required.share && !granted.share ||
    required.transfer && !granted.transfer

end CapRights

inductive ResourceType
  | file | directory | socket | device | memory | process | thread | port | key | service
  deriving DecidableEq

structure ServiceCapabilityRecord where
  serviceId : UInt64
  endpointGeneration : UInt32
  ownerEndpoint : Option UInt64
  deriving DecidableEq

structure SharedRegionCapabilityRecord where
  regionId : UInt64
  regionGeneration : UInt64
  len : UInt64
  writable : Bool
  deriving DecidableEq

structure RequestCapabilityRecord where
  requestId : UInt64
  serviceId : UInt64
  endpointGeneration : UInt32
  ownerEndpoint : Option UInt64
  deriving DecidableEq

inductive CapabilityKind
  | generic
  | service (record : ServiceCapabilityRecord)
  | sharedRegion (record : SharedRegionCapabilityRecord)
  | request (record : RequestCapabilityRecord)
  deriving DecidableEq

structure Capability where
  id : CapId
  resourceType : ResourceType
  resourceId : UInt64
  rights : CapRights
  owner : Pid
  generation : UInt32
  userHandle : UserHandle
  handleGeneration : UInt32
  kind : CapabilityKind
  children : List CapId
  deriving DecidableEq

structure CapabilityTable where
  processId : Pid
  capabilities : Table CapId Capability
  handles : Table UserHandle CapId
  nextCapId : CapId
  nextHandle : UserHandle

def saturatingSucc (n : UInt32) : UInt32 := if n = 0xFFFFFFFF then n else n + 1

namespace CapabilityTable

def new (processId : Pid) : CapabilityTable := ⟨processId, ∅, ∅, 1, 1⟩

variable (t : CapabilityTable)

def freshHandle : UserHandle := max t.nextHandle 1

def allocateHandle : UserHandle × CapabilityTable :=
  (t.freshHandle, { t with nextHandle := max (saturatingSucc t.nextHandle) 1 })

def store (handle : UserHandle) (id : CapId) (cap : Capability) : CapabilityTable :=
  { t with
    handles := t.handles.insert handle id
    capabilities := t.capabilities.insert id cap }

def createWithKind (resourceType : ResourceType) (resourceId : UInt64)
    (rights : CapRights) (kind : CapabilityKind) : CapId × CapabilityTable :=
  let id := t.nextCapId
  let (handle, t) := { t with nextCapId := t.nextCapId + 1 }.allocateHandle
  let cap : Capability :=
    { id, resourceType, resourceId, rights, owner := t.processId, generation := 0,
      userHandle := handle, handleGeneration := 1, kind, children := [] }
  (id, t.store handle id cap)

def create (resourceType : ResourceType) (resourceId : UInt64)
    (rights : CapRights) : CapId × CapabilityTable :=
  t.createWithKind resourceType resourceId rights .generic

def get (id : CapId) : Option Capability := t.capabilities.lookup id

def getByHandle (handle : UserHandle) : Option Capability := do
  let capId ← t.handles.lookup handle
  t.capabilities.lookup capId

def child (parent : Capability) (subsetRights : CapRights)
    (childId : CapId) (handle : UserHandle) : Capability :=
  { id := childId
    resourceType := parent.resourceType
    resourceId := parent.resourceId
    rights := subsetRights
    owner := t.processId
    generation := parent.generation + 1
    userHandle := handle
    handleGeneration := max (saturatingSucc parent.handleGeneration) 1
    kind := parent.kind
    children := [] }

def derive (parentId : CapId) (subsetRights : CapRights) : Option CapId × CapabilityTable :=
  match t.capabilities.lookup parentId with
  | none => (none, t)
  | some parent =>
    if subsetRights.exceeds parent.rights then (none, t)
    else
      let childId := t.nextCapId
      let (handle, t) := { t with nextCapId := t.nextCapId + 1 }.allocateHandle
      let parent' := { parent with children := parent.children ++ [childId] }
      let t := { t with capabilities := t.capabilities.insert parentId parent' }
      (some childId, t.store handle childId (t.child parent subsetRights childId handle))

def drop (id : CapId) (cap : Capability) : CapabilityTable :=
  { t with
    capabilities := t.capabilities.erase id
    handles := t.handles.erase cap.userHandle }

/-- `revoke` within a depth of the recursion, if it does not go deeper. Every level takes a
capability away first. -/
def revokeWithin : ℕ → CapabilityTable → CapId → Option (Bool × CapabilityTable)
  | 0, _, _ => none
  | depth + 1, t, id =>
    match t.capabilities.lookup id with
    | none => some (false, t)
    | some cap => do
      let t ← cap.children.foldlM (fun t child => (revokeWithin depth t child).map Prod.snd)
        (t.drop id cap)
      pure (true, t)

/-- The depth is always enough. -/
def revoke (id : CapId) : Bool × CapabilityTable :=
  (revokeWithin (size t.capabilities + 1) t id).getD (false, t)

def revokeHandle (handle : UserHandle) : Bool × CapabilityTable :=
  match t.handles.lookup handle with
  | none => (false, t)
  | some capId => t.revoke capId

/-- A capability without the transfer right goes back under its id and its handle. -/
def transfer (t : CapabilityTable) (id : CapId) (targetPid : Pid) :
    Option Capability × CapabilityTable :=
  match t.capabilities.lookup id with
  | none => (none, t)
  | some cap =>
    if !cap.rights.transfer then (none, (t.drop id cap).store cap.userHandle id cap)
    else
      (some { cap with owner := targetPid, generation := saturatingSucc cap.generation },
        t.drop id cap)

def insertTransferredCapability (cap : Capability) : UserHandle × CapabilityTable :=
  let (handle, t) := t.allocateHandle
  let cap :=
    { cap with
      owner := t.processId
      userHandle := handle
      handleGeneration := max (saturatingSucc cap.handleGeneration) 1 }
  (handle, t.store handle cap.id cap)

theorem transfer_eq_some {t : CapabilityTable} {id : CapId} {targetPid : Pid} {cap : Capability}
    (h : (t.transfer id targetPid).1 = some cap) :
    ∃ held, t.capabilities.lookup id = some held ∧ held.rights.transfer ∧
      cap = { held with
        owner := targetPid
        generation := saturatingSucc held.generation } := by
  unfold transfer at h
  cases hcap : t.capabilities.lookup id with
  | none =>
    rw [hcap] at h
    cases h
  | some held =>
    rw [hcap] at h
    dsimp only at h
    split_ifs at h with htransfer
    have hright : held.rights.transfer = true := by simpa using htransfer
    exact ⟨held, rfl, hright, (some.inj h).symm⟩

theorem derive_cases (parentId : CapId) (subsetRights : CapRights) :
    (t.derive parentId subsetRights).2 = t ∨
      ∃ parent, t.capabilities.lookup parentId = some parent ∧
        subsetRights.exceeds parent.rights = false ∧
        (t.derive parentId subsetRights).2 =
          store
            { t with
              nextCapId := t.nextCapId + 1
              nextHandle := max (saturatingSucc t.nextHandle) 1
              capabilities := t.capabilities.insert parentId
                { parent with children := parent.children ++ [t.nextCapId] } }
            t.freshHandle t.nextCapId
            (t.child parent subsetRights t.nextCapId t.freshHandle) := by
  unfold derive
  cases hparent : t.capabilities.lookup parentId with
  | none => exact .inl rfl
  | some parent =>
    dsimp only
    split_ifs with hexceeds
    · exact .inl rfl
    · have hrights : subsetRights.exceeds parent.rights = false := by simpa using hexceeds
      exact .inr ⟨parent, rfl, hrights, rfl⟩

section Revoke

variable (id : CapId)

/-- What the recursion of `revoke` keeps, once taking a capability away keeps it. -/
theorem revokeWithin_invariant {I : CapabilityTable → Prop}
    (hdrop : ∀ t id cap, t.capabilities.lookup id = some cap → I t → I (t.drop id cap))
    {depth : ℕ} {t : CapabilityTable} {id : CapId} {result : Bool × CapabilityTable}
    (h : I t) (hresult : revokeWithin depth t id = some result) : I result.2 := by
  induction depth generalizing t id result with
  | zero => cases hresult
  | succ depth ih =>
    unfold revokeWithin at hresult
    cases hcap : t.capabilities.lookup id with
    | none =>
      rw [hcap] at hresult
      cases hresult
      exact h
    | some cap =>
      rw [hcap] at hresult
      obtain ⟨t', hfold, hsome⟩ := Option.bind_eq_some_iff.mp hresult
      cases hsome
      have hrest : ∀ (children : List CapId) (t t' : CapabilityTable), I t →
          children.foldlM (fun t child => (revokeWithin depth t child).map Prod.snd) t = some t' →
          I t' := by
        intro children
        induction children with
        | nil =>
          intro t t' ht hfold
          cases hfold
          exact ht
        | cons child children ihc =>
          intro t t' ht hfold
          rw [List.foldlM_cons] at hfold
          obtain ⟨t₁, hone, hfold⟩ := Option.bind_eq_some_iff.mp hfold
          obtain ⟨result, hchild, rfl⟩ := Option.map_eq_some_iff.mp hone
          exact ihc _ t' (ih ht hchild) hfold
      exact hrest cap.children _ t' (hdrop t id cap hcap h) hfold

theorem revoke_invariant {I : CapabilityTable → Prop}
    (hdrop : ∀ t id cap, t.capabilities.lookup id = some cap → I t → I (t.drop id cap))
    {t : CapabilityTable} (h : I t) : I (t.revoke id).2 := by
  unfold revoke
  cases hresult : revokeWithin (size t.capabilities + 1) t id with
  | none => exact h
  | some result => exact revokeWithin_invariant hdrop h hresult

/-- Two depths beyond the number of capabilities give one result: a child is revoked in a table
that has lost its parent. -/
theorem revokeWithin_eq_some {depth depth' : ℕ} {t : CapabilityTable}
    (h : size t.capabilities < depth) (h' : size t.capabilities < depth') :
    ∃ result, revokeWithin depth t id = some result ∧ revokeWithin depth' t id = some result := by
  induction depth generalizing depth' t id with
  | zero => omega
  | succ depth ih =>
    obtain ⟨depth', rfl⟩ : ∃ d, depth' = d + 1 := ⟨depth' - 1, by omega⟩
    unfold revokeWithin
    cases hcap : t.capabilities.lookup id with
    | none => exact ⟨_, rfl, rfl⟩
    | some cap =>
      have hmem : id ∈ t.capabilities := mem_iff_exists.mpr ⟨cap, hcap⟩
      have hlt : size (t.drop id cap).capabilities < size t.capabilities := size_erase_lt hmem
      have hrest : ∀ (children : List CapId) (t : CapabilityTable),
          size t.capabilities < depth → size t.capabilities < depth' →
          ∃ t', children.foldlM (fun t child => (revokeWithin depth t child).map Prod.snd) t =
              some t' ∧
            children.foldlM (fun t child => (revokeWithin depth' t child).map Prod.snd) t =
              some t' := by
        intro children
        induction children with
        | nil => exact fun t _ _ => ⟨t, rfl, rfl⟩
        | cons child children ihc =>
          intro t hd hd'
          obtain ⟨result, hone, hone'⟩ := ih child hd hd'
          have hle :=
            revokeWithin_invariant (I := fun t' => size t'.capabilities ≤ size t.capabilities)
              (fun _ _ _ _ ht => Nat.le_trans (size_erase_le _ _) ht) le_rfl hone
          obtain ⟨t', hfold, hfold'⟩ := ihc result.2 (by omega) (by omega)
          rw [List.foldlM_cons, List.foldlM_cons, hone, hone']
          exact ⟨t', hfold, hfold'⟩
      obtain ⟨t', hfold, hfold'⟩ := hrest cap.children (t.drop id cap) (by omega) (by omega)
      dsimp only
      rw [hfold, hfold']
      exact ⟨_, rfl, rfl⟩

/-- The recursion never goes deeper than the number of capabilities, whatever the links between
them. -/
theorem revokeWithin_of_size_lt {depth : ℕ} {t : CapabilityTable}
    (h : size t.capabilities < depth) : revokeWithin depth t id = some (t.revoke id) := by
  obtain ⟨result, hdepth, hown⟩ := revokeWithin_eq_some id h (Nat.lt_succ_self _)
  rw [hdepth, revoke, hown]
  rfl

/-- A capability with a child that has a child. -/
theorem revokeWithin_derived :
    let t := ((new 0).create .memory 0 .ALL).2
    let t := ((t.derive 1 .ALL).2.derive 2 .ALL).2
    revokeWithin 4 t 1 = some (t.revoke 1) :=
  revokeWithin_of_size_lt 1 (by decide)

end Revoke

end CapabilityTable

abbrev CapTables := Table Pid CapabilityTable

namespace CapTables

open CapabilityTable

def processTable (tables : CapTables) (pid : Pid) : CapabilityTable :=
  (tables.lookup pid).getD (.new pid)

def ensureProcessInner (tables : CapTables) (pid : Pid) : CapTables :=
  tables.insert pid (tables.processTable pid)

def initProcess (tables : CapTables) (pid : Pid) : CapTables := tables.ensureProcessInner pid

def onTable {α : Type} (tables : CapTables) (pid : Pid) (missing : α)
    (call : CapabilityTable → α × CapabilityTable) : α × CapTables :=
  match tables.lookup pid with
  | none => (missing, tables)
  | some t => ((call t).1, tables.insert pid (call t).2)

def createCapability (tables : CapTables) (pid : Pid) (resourceType : ResourceType)
    (resourceId : UInt64) (rights : CapRights) : Option CapId × CapTables :=
  tables.onTable pid none fun t =>
    (some (t.create resourceType resourceId rights).1, (t.create resourceType resourceId rights).2)

def deriveCapability (tables : CapTables) (pid : Pid) (parentId : CapId)
    (subsetRights : CapRights) : Option CapId × CapTables :=
  tables.onTable pid none fun t => t.derive parentId subsetRights

def revokeCapability (tables : CapTables) (pid : Pid) (capId : CapId) : Bool × CapTables :=
  tables.onTable pid false fun t => t.revoke capId

def transferCapability (tables : CapTables) (fromPid : Pid) (capId : CapId) (toPid : Pid) :
    Bool × CapTables :=
  match tables.lookup fromPid with
  | none => (false, tables)
  | some t =>
    let tables := AList.insert fromPid (t.transfer capId toPid).2 tables
    match (t.transfer capId toPid).1 with
    | none => (false, tables)
    | some cap =>
      let target := CapTables.processTable tables toPid
      (true, tables.insert toPid (target.insertTransferredCapability cap).2)

def cleanupProcess (tables : CapTables) (pid : Pid) : CapTables := tables.erase pid

/-- `create_with_kind` in the table of a process, which is made on first use. -/
def createIn (tables : CapTables) (pid : Pid) (resourceType : ResourceType)
    (resourceId : UInt64) (rights : CapRights) (kind : CapabilityKind) :
    Option UserHandle × CapTables :=
  let (capId, t) := (tables.processTable pid).createWithKind resourceType resourceId rights kind
  ((t.get capId).map (·.userHandle), tables.insert pid t)

def openServiceHandle (tables : CapTables) (pid : Pid) (serviceId : UInt64) (rights : CapRights)
    (endpointGeneration : UInt32) (ownerEndpoint : Option UInt64) : Option UserHandle × CapTables :=
  tables.createIn pid .service serviceId rights
    (.service { serviceId, endpointGeneration, ownerEndpoint })

def grantRequestHandle (tables : CapTables) (pid : Pid) (requestId serviceId : UInt64)
    (endpointGeneration : UInt32) (ownerEndpoint : Option UInt64) : Option UserHandle × CapTables :=
  tables.createIn pid .service serviceId .READ_WRITE
    (.request { requestId, serviceId, endpointGeneration, ownerEndpoint })

def grantSharedRegionHandle (tables : CapTables) (pid : Pid)
    (regionId regionGeneration len : UInt64) (writable : Bool) : Option UserHandle × CapTables :=
  tables.createIn pid .memory regionId (if writable then .READ_WRITE else .READ)
    (.sharedRegion { regionId, regionGeneration, len, writable })

inductive CapabilityError
  | processNotInitialized | invalidHandle
  deriving DecidableEq

def revokeHandle (tables : CapTables) (pid : Pid) (handle : UserHandle) :
    Except CapabilityError Unit × CapTables :=
  tables.onTable pid (.error .processNotInitialized) fun t =>
    (if (t.revokeHandle handle).1 then .ok () else .error .invalidHandle,
      (t.revokeHandle handle).2)

inductive Op
  | initProcess (pid : Pid)
  | createCapability (pid : Pid) (resourceType : ResourceType) (resourceId : UInt64)
      (rights : CapRights)
  | createWithKind (pid : Pid) (resourceType : ResourceType) (resourceId : UInt64)
      (rights : CapRights) (kind : CapabilityKind)
  | openServiceHandle (pid : Pid) (serviceId : UInt64) (rights : CapRights)
      (endpointGeneration : UInt32) (ownerEndpoint : Option UInt64)
  | grantRequestHandle (pid : Pid) (requestId serviceId : UInt64)
      (endpointGeneration : UInt32) (ownerEndpoint : Option UInt64)
  | grantSharedRegionHandle (pid : Pid) (regionId regionGeneration len : UInt64)
      (writable : Bool)
  | deriveCapability (pid : Pid) (parentId : CapId) (subsetRights : CapRights)
  | revokeCapability (pid : Pid) (capId : CapId)
  | revokeHandle (pid : Pid) (handle : UserHandle)
  | transferCapability (fromPid : Pid) (capId : CapId) (toPid : Pid)
  | cleanupProcess (pid : Pid)

def step (tables : CapTables) : Op → CapTables
  | .initProcess pid => tables.initProcess pid
  | .createCapability pid resourceType resourceId rights =>
    (tables.createCapability pid resourceType resourceId rights).2
  | .createWithKind pid resourceType resourceId rights kind =>
    (tables.createIn pid resourceType resourceId rights kind).2
  | .openServiceHandle pid serviceId rights endpointGeneration ownerEndpoint =>
    (tables.openServiceHandle pid serviceId rights endpointGeneration ownerEndpoint).2
  | .grantRequestHandle pid requestId serviceId endpointGeneration ownerEndpoint =>
    (tables.grantRequestHandle pid requestId serviceId endpointGeneration ownerEndpoint).2
  | .grantSharedRegionHandle pid regionId regionGeneration len writable =>
    (tables.grantSharedRegionHandle pid regionId regionGeneration len writable).2
  | .deriveCapability pid parentId subsetRights =>
    (tables.deriveCapability pid parentId subsetRights).2
  | .revokeCapability pid capId => (tables.revokeCapability pid capId).2
  | .revokeHandle pid handle => (tables.revokeHandle pid handle).2
  | .transferCapability fromPid capId toPid => (tables.transferCapability fromPid capId toPid).2
  | .cleanupProcess pid => tables.cleanupProcess pid

/-- The arguments of a `create_with_kind` call, with the process whose table it is made on. -/
structure Grant where
  pid : Pid
  resourceType : ResourceType
  resourceId : UInt64
  rights : CapRights
  kind : CapabilityKind
  deriving DecidableEq

def grantOf (tables : CapTables) : Op → Option Grant
  | .createCapability pid resourceType resourceId rights =>
    (tables.lookup pid).map fun _ => ⟨pid, resourceType, resourceId, rights, .generic⟩
  | .createWithKind pid resourceType resourceId rights kind =>
    some ⟨pid, resourceType, resourceId, rights, kind⟩
  | .openServiceHandle pid serviceId rights endpointGeneration ownerEndpoint =>
    some ⟨pid, .service, serviceId, rights,
      .service { serviceId, endpointGeneration, ownerEndpoint }⟩
  | .grantRequestHandle pid requestId serviceId endpointGeneration ownerEndpoint =>
    some ⟨pid, .service, serviceId, .READ_WRITE,
      .request { requestId, serviceId, endpointGeneration, ownerEndpoint }⟩
  | .grantSharedRegionHandle pid regionId regionGeneration len writable =>
    some ⟨pid, .memory, regionId, if writable then .READ_WRITE else .READ,
      .sharedRegion { regionId, regionGeneration, len, writable }⟩
  | _ => none

def Grant.made (g : Grant) (t : CapabilityTable) : CapabilityTable :=
  (t.createWithKind g.resourceType g.resourceId g.rights g.kind).2

/-- What a step can make of the table of a process. -/
inductive Change (tables : CapTables) (op : Op) (pid : Pid) : CapabilityTable → Prop
  | kept : Change tables op pid (tables.processTable pid)
  | created (g : Grant) (hgrant : tables.grantOf op = some g) (hpid : g.pid = pid) :
      Change tables op pid (g.made (tables.processTable pid))
  | derived (parentId : CapId) (subsetRights : CapRights)
      (hop : op = .deriveCapability pid parentId subsetRights) :
      Change tables op pid ((tables.processTable pid).derive parentId subsetRights).2
  | revoked (capId : CapId) : Change tables op pid ((tables.processTable pid).revoke capId).2
  | released (capId : CapId) (toPid : Pid) (hop : op = .transferCapability pid capId toPid) :
      Change tables op pid ((tables.processTable pid).transfer capId toPid).2
  | received (fromPid : Pid) (capId : CapId) (cap : Capability)
      (hop : op = .transferCapability fromPid capId pid) (hother : fromPid ≠ pid)
      (hcap : ((tables.processTable fromPid).transfer capId pid).1 = some cap) :
      Change tables op pid ((tables.processTable pid).insertTransferredCapability cap).2
  | returned (capId : CapId) (cap : Capability) (hop : op = .transferCapability pid capId pid)
      (hcap : ((tables.processTable pid).transfer capId pid).1 = some cap) :
      Change tables op pid
        (((tables.processTable pid).transfer capId pid).2.insertTransferredCapability cap).2

section Changes

variable {tables : CapTables}

variable {pid pid' : Pid} {t' : CapabilityTable} {op : Op} {t : CapabilityTable}

theorem processTable_of_lookup (h : tables.lookup pid = some t) : tables.processTable pid = t := by
  show (tables.lookup pid).getD _ = t
  rw [h, getD_some]

theorem processTable_insert (tables : CapTables) (pid pid' : Pid) (t : CapabilityTable) :
    CapTables.processTable (AList.insert pid t tables) pid' =
      if pid' = pid then t else tables.processTable pid' := by
  unfold processTable
  rw [lookup_insert_eq]
  split_ifs
  · rw [getD_some]
  · rfl

theorem lookup_insert_cases (h : (AList.insert pid t tables).lookup pid' = some t') :
    (pid' = pid ∧ t' = t) ∨ tables.processTable pid' = t' := by
  rw [lookup_insert_eq] at h
  split_ifs at h with hpid
  · exact .inl ⟨hpid, (some.inj h).symm⟩
  · exact .inr (processTable_of_lookup h)

theorem lookup_onTable_cases {α : Type} {missing : α} {call : CapabilityTable → α × CapabilityTable}
    (h : (tables.onTable pid missing call).2.lookup pid' = some t') :
    (pid' = pid ∧ t' = (call (tables.processTable pid)).2 ∧ (tables.lookup pid).isSome) ∨
      tables.processTable pid' = t' := by
  unfold onTable at h
  cases ht : tables.lookup pid with
  | none =>
    rw [ht] at h
    exact .inr (processTable_of_lookup h)
  | some t =>
    rw [ht] at h
    obtain ⟨hpid, hcall⟩ | hold := lookup_insert_cases h
    · have hsame := processTable_of_lookup ht
      exact .inl ⟨hpid, by rw [hsame, hcall], rfl⟩
    · exact .inr hold

theorem change_createIn (g : Grant) (hgrant : tables.grantOf op = some g)
    (h : (tables.createIn g.pid g.resourceType g.resourceId g.rights g.kind).2.lookup pid =
      some t') : Change tables op pid t' := by
  obtain ⟨hpid, hmade⟩ | hold := lookup_insert_cases h
  · subst hpid
    rw [hmade]
    exact .created g hgrant rfl
  · rw [← hold]
    exact .kept

theorem change_transfer {fromPid toPid : Pid} {capId : CapId}
    (h : (tables.transferCapability fromPid capId toPid).2.lookup pid = some t') :
    Change tables (.transferCapability fromPid capId toPid) pid t' := by
  unfold transferCapability at h
  cases ht : tables.lookup fromPid with
  | none =>
    rw [ht] at h
    rw [← processTable_of_lookup h]
    exact .kept
  | some t =>
    obtain rfl : tables.processTable fromPid = t := processTable_of_lookup ht
    rw [ht] at h
    cases hcap : ((tables.processTable fromPid).transfer capId toPid).1 with
    | none =>
      simp only [hcap] at h
      obtain ⟨rfl, hrest⟩ | hold := lookup_insert_cases h
      · rw [hrest]
        exact .released capId toPid rfl
      · rw [← hold]
        exact .kept
    | some cap =>
      simp only [hcap] at h
      obtain ⟨rfl, htarget⟩ | hold := lookup_insert_cases h
      · -- The table that receives may be the one that gives.
        rw [htarget, processTable_insert]
        by_cases hself : pid = fromPid
        · subst hself
          rw [if_pos rfl]
          exact .returned capId cap rfl hcap
        · rw [if_neg hself]
          exact .received fromPid capId cap rfl (Ne.symm hself) hcap
      · rw [← hold, processTable_insert]
        by_cases hself : pid = fromPid
        · subst hself
          rw [if_pos rfl]
          exact .released capId toPid rfl
        · rw [if_neg hself]
          exact .kept

theorem change_onTable {α : Type} {missing : α} {call : CapabilityTable → α × CapabilityTable}
    (hcall : (tables.lookup pid).isSome → Change tables op pid (call (tables.processTable pid)).2)
    (h : (tables.onTable pid missing call).2.lookup pid' = some t') : Change tables op pid' t' := by
  obtain ⟨rfl, rfl, hsome⟩ | hold := lookup_onTable_cases h
  · exact hcall hsome
  · rw [← hold]
    exact .kept

theorem change_revokeHandle (handle : UserHandle) :
    Change tables op pid ((tables.processTable pid).revokeHandle handle).2 := by
  unfold CapabilityTable.revokeHandle
  cases (tables.processTable pid).handles.lookup handle with
  | none => exact .kept
  | some capId => exact .revoked capId

theorem lookup_step (h : (tables.step op).lookup pid = some t') : Change tables op pid t' := by
  cases op with
  | initProcess target =>
    obtain ⟨rfl, rfl⟩ | hold := lookup_insert_cases h
    · exact .kept
    · rw [← hold]
      exact .kept
  | createCapability target resourceType resourceId rights =>
    refine change_onTable ?_ h
    intro hsome
    obtain ⟨t, ht⟩ := isSome_iff_exists.mp hsome
    have hgrant : tables.grantOf (.createCapability target resourceType resourceId rights) =
        some ⟨target, resourceType, resourceId, rights, .generic⟩ := by
      show (tables.lookup target).map _ = _
      rw [ht, map_some]
    exact .created _ hgrant rfl
  | createWithKind target resourceType resourceId rights kind => exact change_createIn _ rfl h
  | openServiceHandle target serviceId rights endpointGeneration ownerEndpoint
  | grantRequestHandle target requestId serviceId endpointGeneration ownerEndpoint
  | grantSharedRegionHandle target regionId regionGeneration len writable =>
    exact change_createIn _ rfl h
  | deriveCapability target parentId subsetRights =>
    refine change_onTable ?_ h
    intro _
    exact .derived parentId subsetRights rfl
  | revokeCapability target capId =>
    refine change_onTable ?_ h
    intro _
    exact .revoked capId
  | revokeHandle target handle =>
    refine change_onTable ?_ h
    intro _
    exact change_revokeHandle handle
  | transferCapability fromPid capId toPid => exact change_transfer h
  | cleanupProcess target =>
    have herase : (AList.erase target tables).lookup pid = some t' := h
    rw [lookup_erase_eq] at herase
    split_ifs at herase
    rw [← processTable_of_lookup herase]
    exact .kept

/-- A property of the tables that a new one has is kept by a step if every change keeps it. -/
theorem forall_processTable_step {I : Pid → CapabilityTable → Prop}
    (hnew : ∀ pid, I pid (.new pid)) (hchange : ∀ pid t', Change tables op pid t' → I pid t')
    (pid : Pid) : I pid ((tables.step op).processTable pid) := by
  cases ht : (tables.step op).lookup pid with
  | none =>
    show I pid (((tables.step op).lookup pid).getD (.new pid))
    rw [ht]
    exact hnew pid
  | some t' =>
    rw [processTable_of_lookup ht]
    exact hchange pid t' (lookup_step ht)

end Changes

end CapTables

end EchOS.Security
