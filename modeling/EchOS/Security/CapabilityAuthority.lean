import EchOS.Security.Capability

/-! Every capability goes back to a `create_with_kind` call: over all derivations, transfers and
revocations the authority a process holds stays within what that call granted. -/

namespace EchOS.Security

open CapRights

structure CapRights.Within (rights granted : CapRights) : Prop where
  read : rights.read → granted.read
  write : rights.write → granted.write
  execute : rights.execute → granted.execute
  share : rights.share → granted.share
  transfer : rights.transfer → granted.transfer

namespace CapRights

theorem within_refl (rights : CapRights) : rights.Within rights := ⟨id, id, id, id, id⟩

theorem Within.trans {a b c : CapRights} (hab : a.Within b) (hbc : b.Within c) : a.Within c where
  read := hbc.read ∘ hab.read
  write := hbc.write ∘ hab.write
  execute := hbc.execute ∘ hab.execute
  share := hbc.share ∘ hab.share
  transfer := hbc.transfer ∘ hab.transfer

theorem within_of_not_exceeds {rights granted : CapRights}
    (h : rights.exceeds granted = false) : rights.Within granted := by
  simp only [exceeds, Bool.or_eq_false_iff, Bool.and_eq_false_iff, Bool.not_eq_false'] at h
  obtain ⟨⟨⟨⟨hr, hw⟩, he⟩, hs⟩, ht⟩ := h
  constructor
  · exact fun h => hr.resolve_left (by rw [h]; exact Bool.noConfusion)
  · exact fun h => hw.resolve_left (by rw [h]; exact Bool.noConfusion)
  · exact fun h => he.resolve_left (by rw [h]; exact Bool.noConfusion)
  · exact fun h => hs.resolve_left (by rw [h]; exact Bool.noConfusion)
  · exact fun h => ht.resolve_left (by rw [h]; exact Bool.noConfusion)

end CapRights

/-- The capability is over what the grant named and has no right that the grant did not give. -/
structure Capability.Under (cap : Capability) (g : CapTables.Grant) : Prop where
  resourceType : cap.resourceType = g.resourceType
  resourceId : cap.resourceId = g.resourceId
  kind : cap.kind = g.kind
  rights : cap.rights.Within g.rights

namespace CapabilityTable

def Holds (P : Capability → Prop) (t : CapabilityTable) : Prop :=
  ∀ id cap, t.capabilities.lookup id = some cap → P cap

variable {P : Capability → Prop} {t : CapabilityTable}

theorem holds_new (pid : Pid) : Holds P (new pid) := by
  intro id cap h
  cases h

theorem Holds.insert (h : Holds P t) {id : CapId} {cap : Capability} (hcap : P cap) :
    Holds P { t with capabilities := t.capabilities.insert id cap } := by
  intro id' cap' hins
  rw [Table.lookup_insert_eq] at hins
  split_ifs at hins
  · rw [← Option.some.inj hins]
    exact hcap
  · exact h id' cap' hins

theorem Holds.drop (h : Holds P t) (id : CapId) (cap : Capability) : Holds P (t.drop id cap) := by
  intro id' cap' hlookup
  have herase : (AList.erase id t.capabilities).lookup id' = some cap' := hlookup
  rw [Table.lookup_erase_eq] at herase
  split_ifs at herase
  exact h id' cap' herase

theorem Holds.revoke (h : Holds P t) (id : CapId) : Holds P (t.revoke id).2 :=
  revoke_invariant id (fun _ id cap _ ht => ht.drop id cap) h

theorem Holds.transfer_rest (h : Holds P t) (id : CapId) (targetPid : Pid) :
    Holds P (t.transfer id targetPid).2 := by
  unfold transfer
  cases hcap : t.capabilities.lookup id with
  | none => exact h
  | some cap =>
    have hold : P cap := h id cap hcap
    dsimp only
    split_ifs
    · exact Holds.insert (h.drop id cap) hold
    · exact h.drop id cap

theorem Holds.derive (h : Holds P t) (parentId : CapId) (subsetRights : CapRights)
    (hchildren : ∀ cap children, P cap → P { cap with children })
    (hchild : ∀ parent, P parent → subsetRights.Within parent.rights →
      ∀ id handle, P (t.child parent subsetRights id handle)) :
    Holds P (t.derive parentId subsetRights).2 := by
  obtain hsame | ⟨parent, hparent, hrights, hderive⟩ := derive_cases t parentId subsetRights
  · rw [hsame]
    exact h
  · have hheld : P parent := h parentId parent hparent
    have hwithin := within_of_not_exceeds hrights
    rw [hderive]
    apply Holds.insert
    · exact Holds.insert h (hchildren parent _ hheld)
    · exact hchild parent hheld hwithin _ _

end CapabilityTable

namespace CapTables

open CapabilityTable

/-- The `create_with_kind` calls along a run, in their order. -/
def grantsMade : CapTables → List Op → List Grant
  | _, [] => []
  | tables, op :: ops => (tables.grantOf op).toList ++ grantsMade (tables.step op) ops

/-- The process holds a capability within one of the grants, and within one made to another
process only if that grant included the transfer right. -/
def Authorized (grants : List Grant) (pid : Pid) (cap : Capability) : Prop :=
  ∃ g ∈ grants, cap.Under g ∧ (pid ≠ g.pid → g.rights.transfer)

variable {grants : List Grant} {pid : Pid} {cap : Capability}

theorem Authorized.mono {more : List Grant} (h : Authorized grants pid cap) :
    Authorized (grants ++ more) pid cap := by
  obtain ⟨g, hg, hunder, htransfer⟩ := h
  exact ⟨g, List.mem_append_left more hg, hunder, htransfer⟩

theorem Authorized.congr {cap' : Capability} (h : Authorized grants pid cap)
    (htype : cap'.resourceType = cap.resourceType) (hid : cap'.resourceId = cap.resourceId)
    (hkind : cap'.kind = cap.kind) (hrights : cap'.rights.Within cap.rights) :
    Authorized grants pid cap' := by
  obtain ⟨g, hg, hunder, htransfer⟩ := h
  have hunder' : cap'.Under g :=
    ⟨htype.trans hunder.resourceType, hid.trans hunder.resourceId, hkind.trans hunder.kind,
      hrights.trans hunder.rights⟩
  exact ⟨g, hg, hunder', htransfer⟩

theorem Authorized.move (h : Authorized grants pid cap) (hright : cap.rights.transfer)
    (pid' : Pid) : Authorized grants pid' cap := by
  obtain ⟨g, hg, hunder, _⟩ := h
  have hgranted : g.rights.transfer := hunder.rights.transfer hright
  exact ⟨g, hg, hunder, fun _ => hgranted⟩

def AllAuthorized (grants : List Grant) (tables : CapTables) : Prop :=
  ∀ pid, Holds (Authorized grants pid) (tables.processTable pid)

theorem AllAuthorized.step {tables : CapTables} (h : AllAuthorized grants tables) (op : Op) :
    AllAuthorized (grants ++ (tables.grantOf op).toList) (tables.step op) := by
  set grants' := grants ++ (tables.grantOf op).toList with hgrants
  have hold : ∀ pid, Holds (Authorized grants' pid) (tables.processTable pid) :=
    fun pid id cap hcap => (h pid id cap hcap).mono
  refine forall_processTable_step (I := fun pid t => Holds (Authorized grants' pid) t) ?_ ?_
  · exact fun pid => holds_new pid
  · intro pid t' hchange
    cases hchange with
    | kept => exact hold pid
    | created g hgrant hpid =>
      have hmem : g ∈ grants' := by simp [hgrants, hgrant]
      subst hpid
      refine Holds.insert (hold g.pid) ⟨g, hmem, ⟨rfl, rfl, rfl, within_refl _⟩, fun h => ?_⟩
      exact absurd rfl h
    | derived parentId subsetRights hop =>
      apply (hold pid).derive
      · exact fun cap children hcap => hcap.congr rfl rfl rfl (within_refl _)
      · exact fun parent hparent hwithin id handle => hparent.congr rfl rfl rfl hwithin
    | revoked capId => exact (hold pid).revoke capId
    | released capId toPid hop => exact (hold pid).transfer_rest capId toPid
    | received fromPid capId cap hop hother hcap =>
      obtain ⟨held, hlookup, hright, rfl⟩ := transfer_eq_some hcap
      have hheld := (hold fromPid capId held hlookup).move hright pid
      exact Holds.insert (hold pid) (hheld.congr rfl rfl rfl (within_refl _))
    | returned capId cap hop hcap =>
      obtain ⟨held, hlookup, hright, rfl⟩ := transfer_eq_some hcap
      have hheld := hold pid capId held hlookup
      have hrest := (hold pid).transfer_rest capId pid
      exact Holds.insert hrest (hheld.congr rfl rfl rfl (within_refl _))

theorem allAuthorized_exec (ops : List Op) (tables : CapTables) (h : AllAuthorized grants tables) :
    AllAuthorized (grants ++ grantsMade tables ops) (Run.exec step tables ops) := by
  induction ops generalizing grants tables with
  | nil =>
    rw [grantsMade, List.append_nil]
    exact h
  | cons op ops ih =>
    have hnext := ih (tables.step op) (h.step op)
    rw [List.append_assoc] at hnext
    exact hnext

/-- No process ever holds more than what was granted. -/
theorem authority_not_amplified (ops : List Op) (pid : Pid) (t : CapabilityTable) (id : CapId)
    (cap : Capability) (ht : (Run.exec step ∅ ops).lookup pid = some t)
    (hcap : t.get id = some cap) :
    ∃ g ∈ grantsMade ∅ ops,
      cap.resourceType = g.resourceType ∧ cap.resourceId = g.resourceId ∧ cap.kind = g.kind ∧
        cap.rights.Within g.rights ∧ (pid ≠ g.pid → g.rights.transfer) := by
  have hempty : AllAuthorized [] ∅ := fun pid => holds_new pid
  have hall := allAuthorized_exec ops ∅ hempty pid
  rw [processTable_of_lookup ht] at hall
  obtain ⟨g, hg, hunder, htransfer⟩ := hall id cap hcap
  exact ⟨g, hg, hunder.resourceType, hunder.resourceId, hunder.kind, hunder.rights, htransfer⟩

/-- Process 1 creates a key, derives a readable copy of it and gives that to process 2. -/
def keyGiven : List Op :=
  [.initProcess 1, .createCapability 1 .key 77 .ALL,
    .deriveCapability 1 1 { READ with transfer := true }, .transferCapability 1 2 2]

theorem authority_not_amplified_keyGiven :
    ∃ t cap, (Run.exec step ∅ keyGiven).lookup 2 = some t ∧ t.get 2 = some cap ∧
      cap.rights = { READ with transfer := true } ∧
      ∃ g ∈ grantsMade ∅ keyGiven, cap.resourceId = g.resourceId ∧
        cap.rights.Within g.rights ∧ g.rights.transfer := by
  obtain ⟨t, ht, cap, hcap, hrights⟩ : ∃ t ∈ (Run.exec step ∅ keyGiven).lookup 2,
      ∃ cap ∈ t.get 2, cap.rights = { READ with transfer := true } := by decide +kernel
  obtain ⟨g, hg, _, hid, _, hwithin, htransfer⟩ :=
    authority_not_amplified keyGiven 2 t 2 cap ht hcap
  have hcreator : ∀ g ∈ grantsMade ∅ keyGiven, 2 ≠ g.pid := by decide +kernel
  exact ⟨t, cap, ht, hcap, hrights, g, hg, hid, hwithin, htransfer (hcreator g hg)⟩

end CapTables

end EchOS.Security
