import Mathlib.Data.List.Chain
import Kronos.ParentChain
import Kronos.Retention

namespace Kronos.Restore
open ByteRange Rfc3339 Strings ParentChain Retention

structure Request where
  backupID : Bytes
  targetID : Bytes
  at_ : Time

structure Step where
  backupID : Bytes
  type : Bytes
  parentID : Bytes
  manifestID : Bytes
  targetID : Bytes
  storageID : Bytes
  startedAt : Time
  endedAt : Time
  deriving DecidableEq

structure RestorePlan where
  backupID : Bytes
  targetID : Bytes
  storageID : Bytes
  at_ : Time
  steps : List Step
  warnings : List String
  deriving DecidableEq

inductive Fault
  | backupIDRequired | notFound (id : Bytes) | chain (stop : Stop Bytes)
  deriving DecidableEq

-- The last backup of each id.
def findBackup (backups : List Backup) (id : Bytes) : Option Backup :=
  backups.reverse.find? (fun backup => decide (backup.id = id))

def parentOf (backup : Backup) : Option Bytes := if blank backup.parentID then none else some backup.parentID

def step (backup : Backup) : Step where
  backupID := backup.id
  type := backup.type
  parentID := backup.parentID
  manifestID := backup.manifestID
  targetID := backup.targetID
  storageID := backup.storageID
  startedAt := backup.startedAt
  endedAt := backup.endedAt

def warnings (request : Request) (selected : Backup) : List String :=
  if request.at_.isZero = false ∧ selected.endedAt.instant < request.at_.instant then
    ["point-in-time replay requires stream backups after the selected snapshot"]
  else []

def planOf (request : Request) (selected : Backup) (chain : List Backup) : RestorePlan where
  backupID := selected.id
  targetID := if blank request.targetID then selected.targetID else request.targetID
  storageID := selected.storageID
  at_ := request.at_
  steps := chain.reverse.map step
  warnings := warnings request selected

-- The chain is walked from the selected backup to its root and then reversed.
def buildPlan (backups : List Backup) (request : Request) : Except Fault RestorePlan :=
  if blank request.backupID then .error .backupIDRequired
  else match findBackup backups request.backupID with
    | none => .error (.notFound request.backupID)
    | some selected => do
      let chain ← (walk Backup.id parentOf (findBackup backups) (backups.length + 1) [] selected).mapError Fault.chain
      return planOf request selected chain

theorem findBackup_mem {id : Bytes} (found : findBackup backups id = some backup) : backup ∈ backups ∧ backup.id = id :=
  ⟨List.mem_reverse.mp (List.mem_of_find?_eq_some found),by simpa using List.find?_some found⟩

theorem buildPlan_exact : buildPlan backups request = .ok plan ↔ blank request.backupID = false ∧ ∃ selected chain,
      findBackup backups request.backupID = some selected ∧
        walk Backup.id parentOf (findBackup backups) (backups.length + 1) [] selected = .ok chain ∧
          plan = planOf request selected chain := by
  rw [buildPlan,Effect.guard_ok_iff,Bool.not_eq_true]
  apply and_congr_right
  intro _
  constructor
  · intro ran
    cases found : findBackup backups request.backupID with
    | none => rw [found] at ran; cases ran
    | some selected =>
      rw [found] at ran
      cases walked : walk Backup.id parentOf (findBackup backups) (backups.length + 1) [] selected with
      | error => simp only [walked] at ran; cases ran
      | ok chain =>
        simp only [walked] at ran
        exact ⟨selected,chain,rfl,walked,(Except.ok.inj ran).symm⟩
  · rintro ⟨_,_,found,walked,rfl⟩
    rw [found]
    simp only [walked]
    rfl

theorem findBackup_exact (distinct : (backups.map Backup.id).Nodup) (member : backup ∈ backups) :
    findBackup backups backup.id = some backup := by
  cases found : findBackup backups backup.id with
  | none =>
    have missing := List.find?_eq_none.mp found backup (List.mem_reverse.mpr member)
    simp at missing
  | some =>
    obtain ⟨there,same⟩ := findBackup_mem found
    rw [List.inj_on_of_nodup_map distinct there member same]

-- The walk has enough steps for every list, so the loop of the source ends.
theorem buildPlan_finishes (backups : List Backup) (request : Request) :
    buildPlan backups request ≠ .error (.chain .unfinished) := by
  unfold buildPlan
  split
  · simp
  · cases found : findBackup backups request.backupID with
    | none => simp
    | some selected =>
      have names : ∀ k node, findBackup backups k = some node → node.id ∈ backups.map Backup.id :=
        fun k node there => List.mem_map_of_mem (findBackup_mem there).1
      have ends := @walk_finishes _ _ _ Backup.id parentOf (findBackup backups) _ names (backups.length + 1) [] selected
        (List.mem_map_of_mem (findBackup_mem found).1) List.nodup_nil (List.nil_subset _) (by simp)
      dsimp only
      cases walked : walk Backup.id parentOf (findBackup backups) (backups.length + 1) [] selected with
      | ok => intro same; cases same
      | error =>
        rw [walked] at ends
        intro same
        apply ends
        rw [Fault.chain.inj (Except.error.inj same)]

-- A way from a root down to the backup of the id: root first, each one listed
-- and the parent of the next one, none twice.
structure Lineage (backups : List Backup) (id : Bytes) (steps : List Backup) : Prop where
  listed : ∀ backup ∈ steps, backup ∈ backups
  root : ∃ top, steps.head? = some top ∧ parentOf top = none
  linked : steps.IsChain (fun up down => parentOf down = some up.id)
  distinct : (steps.map Backup.id).Nodup
  selected : ∃ last, steps.getLast? = some last ∧ last.id = id

theorem chain_lineage (chained : Chain parentOf (findBackup backups) selected chain) (there : selected ∈ backups) :
    (∀ backup ∈ chain, backup ∈ backups) ∧ (∃ top, chain.getLast? = some top ∧ parentOf top = none) ∧
      chain.IsChain (fun down up => parentOf down = some up.id) := by
  induction chained with
  | root top => exact ⟨List.forall_mem_singleton.mpr there,⟨_,rfl,top⟩,List.isChain_singleton _⟩
  | @step node next up rest linked found later ih =>
    obtain ⟨member,rfl⟩ := findBackup_mem found
    obtain ⟨listed,⟨top,ends,orphan⟩,chained⟩ := ih member
    obtain ⟨_,rfl⟩ := later.head
    refine ⟨List.forall_mem_cons.mpr ⟨there,listed⟩,⟨top,?_,orphan⟩,List.isChain_cons_cons.mpr ⟨linked,chained⟩⟩
    exact ends

theorem lineage_chain (distinct : (backups.map Backup.id).Nodup)
    (listed : ∀ backup ∈ selected :: rest, backup ∈ backups) (ends : (selected :: rest).getLast? = some top)
    (orphan : parentOf top = none) (linked : (selected :: rest).IsChain (fun down up => parentOf down = some up.id)) :
    Chain parentOf (findBackup backups) selected (selected :: rest) := by
  induction rest generalizing selected with
  | nil =>
    obtain rfl := Option.some.inj ends
    exact .root orphan
  | cons next _ ih =>
    obtain ⟨up,later⟩ := List.isChain_cons_cons.mp linked
    obtain ⟨_,others⟩ := List.forall_mem_cons.mp listed
    exact .step up (findBackup_exact distinct (others next List.mem_cons_self)) (ih others ends later)

theorem Lineage.of_walk {selected : Backup} (there : selected ∈ backups)
    (walked : walk Backup.id parentOf (findBackup backups) fuel [] selected = .ok chain) :
    Lineage backups selected.id chain.reverse := by
  obtain ⟨chained,different,_⟩ := walk_sound walked
  obtain ⟨listed,⟨top,ends,orphan⟩,linked⟩ := chain_lineage chained there
  obtain ⟨_,rfl⟩ := chained.head
  refine ⟨?_,⟨top,?_,orphan⟩,List.isChain_reverse.mpr linked,?_,⟨selected,?_,rfl⟩⟩
  · intro backup member
    exact listed backup (List.mem_reverse.mp member)
  · rw [List.head?_reverse]
    exact ends
  · rw [List.map_reverse,List.nodup_reverse]
    exact different
  · rw [List.getLast?_reverse]
    rfl

theorem Lineage.walk_ok {id : Bytes} (distinct : (backups.map Backup.id).Nodup) (lineage : Lineage backups id steps) :
    ∃ selected, findBackup backups id = some selected ∧
      walk Backup.id parentOf (findBackup backups) (backups.length + 1) [] selected = .ok steps.reverse := by
  obtain ⟨selected,last,rfl⟩ := lineage.selected
  obtain ⟨_,first,orphan⟩ := lineage.root
  rw [← List.head?_reverse] at last
  obtain ⟨_,whole⟩ := List.head?_eq_some_iff.mp last
  have different : (steps.reverse.map Backup.id).Nodup := by
    rw [List.map_reverse,List.nodup_reverse]
    exact lineage.distinct
  have listed : ∀ backup ∈ steps.reverse, backup ∈ backups :=
    fun backup member => lineage.listed backup (List.mem_reverse.mp member)
  have few : steps.reverse.length ≤ backups.length := by
    have size := (List.subperm_of_subset different (List.map_subset Backup.id listed)).length_le
    rwa [List.length_map,List.length_map] at size
  have linked := List.isChain_reverse.mpr lineage.linked
  rw [← List.getLast?_reverse] at first
  rw [whole] at different listed few linked first ⊢
  exact ⟨selected,findBackup_exact distinct (listed selected List.mem_cons_self),
    walk_complete (lineage_chain distinct listed first orphan linked) (by omega) different (by simp)⟩

theorem plans_are_parent_chains {backups : List Backup} (distinct : (backups.map Backup.id).Nodup) (request : Request) :
    (blank request.backupID = false →
      ((∃ plan, buildPlan backups request = .ok plan) ↔ ∃ steps, Lineage backups request.backupID steps)) ∧
      (∀ plan, buildPlan backups request = .ok plan → ∃ steps, Lineage backups request.backupID steps ∧
        plan.backupID = request.backupID ∧ plan.steps = steps.map step) ∧
        buildPlan backups request ≠ .error (.chain .unfinished) := by
  have sound : ∀ plan, buildPlan backups request = .ok plan → ∃ steps, Lineage backups request.backupID steps ∧
      plan.backupID = request.backupID ∧ plan.steps = steps.map step := by
    intro plan built
    obtain ⟨_,selected,chain,found,walked,rfl⟩ := buildPlan_exact.mp built
    obtain ⟨there,same⟩ := findBackup_mem found
    exact ⟨chain.reverse,same ▸ Lineage.of_walk there walked,same,rfl⟩
  refine ⟨?_,sound,buildPlan_finishes backups request⟩
  intro named
  constructor
  · rintro ⟨plan,built⟩
    obtain ⟨steps,lineage,_⟩ := sound plan built
    exact ⟨steps,lineage⟩
  · rintro ⟨_,lineage⟩
    obtain ⟨selected,found,walked⟩ := lineage.walk_ok distinct
    exact ⟨_,buildPlan_exact.mpr ⟨named,selected,_,found,walked,rfl⟩⟩

def link (id parentID : Bytes) : Backup :=
  ⟨id,[116],[115],Utf8.ascii "full",parentID,id,⟨1,0⟩,⟨2,0⟩,1,false⟩

theorem pair_planned : ∃ plan, buildPlan [link [98] [97],link [97] []] ⟨[98],[],⟨0,0⟩⟩ = .ok plan := by
  have distinct : ([link [98] [97],link [97] []].map Backup.id).Nodup := by decide
  apply ((plans_are_parent_chains distinct ⟨[98],[],⟨0,0⟩⟩).1 (by decide)).mpr
  exact ⟨[link [97] [],link [98] [97]],by decide,⟨_,rfl,by decide⟩,.cons_cons (by decide) (.singleton _),by decide,⟨_,rfl,rfl⟩⟩

-- A listed root whose id is a space cannot be selected.
theorem blank_root_unplanned : ([link [32] []].map Backup.id).Nodup ∧ Lineage [link [32] []] [32] [link [32] []] ∧
    buildPlan [link [32] []] ⟨[32],[],⟨0,0⟩⟩ = .error .backupIDRequired :=
  ⟨by decide,⟨by decide,⟨_,rfl,by decide⟩,.singleton _,by decide,⟨_,rfl,rfl⟩⟩,rfl⟩

end Kronos.Restore
