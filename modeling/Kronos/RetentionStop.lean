import Kronos.BackupProtection
import Kronos.RetentionPolicy

namespace Kronos.RetentionStop
open ByteRange Utf8 Rfc3339 RecordTable JobRecords ParentChain Retention Restore RetentionSafety RetentionPolicy
open BackupProtection

-- What is stored when a request ends after so many operations on the store,
-- because one fails or the server stops.
def stopped : Nat → Server Response → BackupTable → BackupTable
  | 0,_,table => table
  | _+1,.done _,table => table
  | n+1,.call op next,table => stopped n (next (exec op table).1) (exec op table).2

def lookup (table : BackupTable) (id : Bytes) : Option Backup := (table.get id).map BackupRecord.toBackup

def deleteIDs (table : BackupTable) (ids : List Bytes) : BackupTable := ids.foldl (fun left id => left.delete id) table

theorem get_deleteIDs (ids : List Bytes) (table : BackupTable) (id : Bytes) :
    (deleteIDs table ids).get id = if id ∈ ids then none else table.get id := by
  induction ids generalizing table with
  | nil => rfl
  | cons first rest ih =>
    change (deleteIDs (table.delete first) rest).get id = _
    rw [ih,Table.get_delete]
    by_cases later : id ∈ rest
    · rw [if_pos later,if_pos (List.mem_cons_of_mem _ later)]
    · by_cases same : id = first
      · rw [if_neg later,if_pos same,if_pos (same ▸ List.mem_cons_self)]
      · rw [if_neg later,if_neg same,if_neg (by simp [same,later])]

theorem deleteAll_stopped (answer : Response) (ids : List Bytes) (n : Nat) (table : BackupTable) :
    ∃ k, stopped n (deleteAll answer ids) table = deleteIDs table (ids.take k) := by
  induction ids generalizing n table with
  | nil => exact ⟨0,by cases n <;> rfl⟩
  | cons id _ ih =>
    rw [deleteAll]
    split
    · exact ⟨0,by cases n <;> rfl⟩
    · cases n with
      | zero => exact ⟨0,rfl⟩
      | succ n =>
        obtain ⟨k,ran⟩ := ih n (table.delete id)
        exact ⟨k + 1,ran⟩

section
variable {values : Values} {clock now : Time} {backups : List Backup} {rules : List RetentionRule} {plan : Plan}

theorem items_newest (resolved : resolve values clock backups rules now = .ok plan) :
    plan.items.Pairwise (fun a b => (backupTime b.backup).instant ≤ (backupTime a.backup).instant) := by
  obtain ⟨items,shape,order,_⟩ := resolve_parts resolved
  have marks := (protectLoop_exact shape).1
  have sorted : (backups.mergeSort newest).Pairwise (fun a b => newest a b = true) := by
    apply List.pairwise_mergeSort
    · intro a b c ab bc
      exact decide_eq_true (le_trans (of_decide_eq_true bc) (of_decide_eq_true ab))
    · intro a b
      rw [newest,newest,Bool.or_eq_true,decide_eq_true_iff,decide_eq_true_iff]
      exact le_total _ _
  rw [← order,← marks_backups marks,List.pairwise_map] at sorted
  exact sorted.imp (fun less => of_decide_eq_true less)

-- A dropped backup goes before its parent, which is older, and a kept one keeps
-- its parent: no prefix of the deletions has a parent without its children.
theorem parent_stays (distinct : (backups.map Backup.id).Nodup)
    (resolved : resolve values clock backups rules now = .ok plan) (childThere : child ∈ backups)
    (parentThere : parent ∈ backups) (linked : parentOf child = some parent.id)
    (older : (backupTime parent).instant < (backupTime child).instant) (stays : child.id ∉ plan.dropIDs.take k) :
    parent.id ∉ plan.dropIDs.take k := by
  have settled := resolve_exact distinct resolved
  intro gone
  by_cases dropped : child.id ∈ plan.dropIDs
  · have backupOf : ∀ item ∈ plan.items, ∀ backup ∈ backups, item.backup.id = backup.id → item.backup = backup := by
      intro item member backup there same
      exact List.inj_on_of_nodup_map distinct (settled.backups.mem_iff.mp (List.mem_map_of_mem member)) there same
    have sorted := (items_newest resolved).sublist (List.filter_sublist (p := fun item => !item.keep))
    rw [Plan.dropIDs] at dropped
    rw [Plan.dropIDs,← List.map_take] at gone stays
    rw [← List.take_append_drop k (plan.items.filter (fun item => !item.keep))] at sorted dropped
    obtain ⟨up,upThere,upNamed⟩ := List.mem_map.mp gone
    obtain ⟨down,downThere,downNamed⟩ := List.mem_map.mp dropped
    rcases List.mem_append.mp downThere with early | late
    · exact stays (List.mem_map.mpr ⟨down,early,downNamed⟩)
    · have order := (List.pairwise_append.mp sorted).2.2 up upThere down late
      have upListed := (List.mem_filter.mp (List.mem_of_mem_take upThere)).1
      have downListed := (List.mem_filter.mp (List.mem_of_mem_drop late)).1
      rw [backupOf up upListed parent parentThere upNamed,backupOf down downListed child childThere downNamed] at order
      omega
  · have here : child ∈ survivors plan backups := List.mem_filter.mpr ⟨childThere,decide_eq_true dropped⟩
    have there := settled.parent_survives distinct here linked (findBackup_exact distinct parentThere)
    exact of_decide_eq_true (List.mem_filter.mp there).2 (List.mem_of_mem_take gone)

end

variable {values : Values} {table : BackupTable}

def listed (table : BackupTable) : List Backup := (exec .list table).1.map BackupRecord.toBackup

theorem listed_mem : backup ∈ listed table ↔ lookup table backup.id = some backup := by
  rw [listed,lookup,List.mem_map,Option.map_eq_some_iff]
  apply exists_congr
  intro row
  constructor
  · rintro ⟨member,rfl⟩
    exact ⟨table.get_exact.mpr ⟨List.mem_mergeSort.mp member,rfl⟩,rfl⟩
  · rintro ⟨found,same⟩
    exact ⟨List.mem_mergeSort.mpr (table.get_exact.mp found).1,same⟩

theorem listed_distinct : ((listed table).map Backup.id).Nodup := by
  rw [listed,List.map_map]
  exact ((List.mergeSort_perm table.rows backupOrder).map (·.id)).nodup_iff.mpr table.rows_nodup

-- A request that stops leaves everything, or all but the first of the ids that
-- its plan drops.
theorem apply_stopped (body : Option ApplyRequest) (clock : Time) (n : Nat) :
    stopped n (handleRetentionApply values body clock) table = table ∨
    ∃ policy now plan k, resolve values clock (listed table) policy now = .ok plan ∧
      stopped n (handleRetentionApply values body clock) table = deleteIDs table (plan.dropIDs.take k) := by
  cases body with
  | none => exact Or.inl (by cases n <;> rfl)
  | some request =>
    cases n with
    | zero => exact Or.inl rfl
    | succ n =>
      have ran : stopped (n + 1) (handleRetentionApply values (some request) clock) table =
          stopped n (planned values request clock (exec .list table).1) table := rfl
      rw [ran]
      unfold planned
      split
      · exact Or.inl (by cases n <;> rfl)
      · rename_i plan resolved
        split
        · exact Or.inl (by cases n <;> rfl)
        · obtain ⟨k,left⟩ := deleteAll_stopped (.applied plan plan.dropIDs false) plan.dropIDs n table
          exact Or.inr ⟨request.policy,request.now,plan,k,resolved,left⟩

theorem interrupted_retention_keeps_chains (ended : ∀ backup ∈ table.rows, backup.endedAt.isZero = false)
    (older : ∀ child ∈ table.rows, ∀ parent ∈ table.rows, parentOf child.toBackup = some parent.id →
      parent.endedAt.instant < child.endedAt.instant)
    (body : Option ApplyRequest) (clock : Time) (n : Nat) {backup : BackupRecord}
    (left : backup ∈ (stopped n (handleRetentionApply values body clock) table).rows) {chain : List Backup}
    (whole : Chain parentOf (lookup table) backup.toBackup chain) :
    Chain parentOf (lookup (stopped n (handleRetentionApply values body clock) table)) backup.toBackup chain := by
  rcases @apply_stopped values table body clock n with same | ⟨policy,now,plan,k,resolved,same⟩
  · rw [same]
    exact whole
  rw [same] at left ⊢
  have kept : ∀ id, lookup (deleteIDs table (plan.dropIDs.take k)) id =
      if id ∈ plan.dropIDs.take k then none else lookup table id := by
    intro id
    rw [lookup,get_deleteIDs]
    split <;> rfl
  have age : ∀ {some}, some ∈ listed table → (∃ row ∈ table.rows, row.toBackup = some) ∧ backupTime some = some.endedAt := by
    intro some member
    obtain ⟨row,there,rfl⟩ := List.mem_map.mp member
    have stored := List.mem_mergeSort.mp there
    exact ⟨⟨row,stored,rfl⟩,if_neg (by simp [ended row stored])⟩
  have here := (deleteIDs table (plan.dropIDs.take k)).get_exact.mpr ⟨left,rfl⟩
  rw [get_deleteIDs] at here
  split at here
  · cases here
  rename_i stays
  refine (@Chain.refound _ _ _ _ _ _ whole (lookup (deleteIDs table (plan.dropIDs.take k)))
    (fun some => some ∈ listed table ∧ some.id ∉ plan.dropIDs.take k) ?_ ?_).1
  · exact ⟨listed_mem.mpr (by rw [lookup,here]; rfl),stays⟩
  · rintro _ up parent ⟨childThere,childStays⟩ linked found
    have named : parent.id = up := by
      obtain ⟨_,stored,rfl⟩ := Option.map_eq_some_iff.mp found
      exact (table.get_exact.mp stored).2
    subst named
    have parentThere := listed_mem.mpr found
    obtain ⟨⟨down,downThere,rfl⟩,downAge⟩ := age childThere
    obtain ⟨⟨above,aboveThere,rfl⟩,aboveAge⟩ := age parentThere
    have parentStays := parent_stays listed_distinct resolved childThere parentThere linked
      (by rw [downAge,aboveAge]; exact older down downThere above aboveThere linked) childStays
    exact ⟨⟨parentThere,parentStays⟩,by rw [kept,if_neg parentStays]; exact found⟩

def recordOf (id parentID : Bytes) (ended : Int) : BackupRecord := ⟨backupOf id parentID ended,ascii "j",1⟩

def threeRows : List BackupRecord :=
  [recordOf (ascii "a") [] 3,recordOf (ascii "b") (ascii "c") 2,recordOf (ascii "c") [] 1]

def threeTable : BackupTable := ⟨threeRows,by unfold SortedRun.Ascending; decide⟩

theorem stopped_after_newest : (stopped 2 (handleRetentionApply noValues (some ⟨[],⟨9,0⟩,false⟩) ⟨9,0⟩) threeTable).rows =
    [recordOf (ascii "b") (ascii "c") 2,recordOf (ascii "c") [] 1] := by
  have rows : (exec .list threeTable).1 = threeRows := List.mergeSort_of_pairwise (by decide)
  have sorted : ((threeRows.map BackupRecord.toBackup).map (fun backup => (⟨backup,false,[]⟩ : PlanItem))).mergeSort
      newestFirst = (threeRows.map BackupRecord.toBackup).map (fun backup => (⟨backup,false,[]⟩ : PlanItem)) :=
    List.mergeSort_of_pairwise (by decide)
  change (stopped 1 (planned noValues ⟨[],⟨9,0⟩,false⟩ ⟨9,0⟩ (exec .list threeTable).1) threeTable).rows = _
  rw [rows,planned,resolve,sorted]
  decide

theorem incremental_chain_outlives_newest :
    Chain parentOf (lookup (stopped 2 (handleRetentionApply noValues (some ⟨[],⟨9,0⟩,false⟩) ⟨9,0⟩) threeTable))
      (backupOf (ascii "b") (ascii "c") 2) [backupOf (ascii "b") (ascii "c") 2,backupOf (ascii "c") [] 1] := by
  have left : recordOf (ascii "b") (ascii "c") 2 ∈
      (stopped 2 (handleRetentionApply noValues (some ⟨[],⟨9,0⟩,false⟩) ⟨9,0⟩) threeTable).rows := by
    rw [stopped_after_newest]
    exact List.mem_cons_self
  have linked : parentOf (backupOf (ascii "b") (ascii "c") 2) = some (ascii "c") := by decide
  have found : lookup threeTable (ascii "c") = some (backupOf (ascii "c") [] 1) := by decide
  exact interrupted_retention_keeps_chains (by decide) (by decide) _ _ _ left (.step linked found (.root (by decide)))

end Kronos.RetentionStop
