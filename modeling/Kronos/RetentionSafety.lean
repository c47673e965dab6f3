import Kronos.Restore
import Kronos.RetentionRules

namespace Kronos.RetentionSafety
open Effect ByteRange Utf8 Rfc3339 ParentChain Retention Restore RetentionRules Strings

-- What a rule may do to an item: keep it, and nothing to its backup.
def Marked (before after : PlanItem) : Prop := after.backup = before.backup ∧ (before.keep = true → after.keep = true)

def Marks (before after : List PlanItem) : Prop := List.Forall₂ Marked before after

theorem Marked.refl (item : PlanItem) : Marked item item := ⟨rfl,fun kept => kept⟩

theorem marks_refl (items : List PlanItem) : Marks items items := List.forall₂_same.mpr (fun item _ => Marked.refl item)

theorem Marked.trans (first : Marked a b) (second : Marked b c) : Marked a c :=
  ⟨second.1.trans first.1,fun kept => second.2 (first.2 kept)⟩

theorem marks_trans (first : Marks a b) (second : Marks b c) : Marks a c := by
  induction first generalizing c with
  | nil => exact second
  | cons head _ ih =>
    cases second with
    | cons next later => exact .cons (head.trans next) (ih later)

theorem keep_marked (item : PlanItem) (reason : Reason) : Marked item (keep item reason) := ⟨rfl,fun _ => rfl⟩

theorem scans_marks {pick : List Backup → Backup → Prop} (scans : Scans pick newer before after) :
    Marks before after := by
  induction scans with
  | nil => exact .nil
  | cons same kept _ ih => exact .cons ⟨same,fun already => kept.mpr (Or.inl already)⟩ ih

def keptCount (items : List PlanItem) : Nat := items.countP PlanItem.keep

theorem set_marks (there : items[p]? = some parent) (dropped : parent.keep = false) (reason : Reason) :
    Marks items (items.set p (keep parent reason)) ∧
      keptCount (items.set p (keep parent reason)) = keptCount items + 1 := by
  induction items generalizing p with
  | nil => cases there
  | cons item rest ih =>
    cases p with
    | zero =>
      obtain rfl := Option.some.inj there
      refine ⟨.cons (keep_marked item reason) (marks_refl rest),?_⟩
      rw [List.set_cons_zero,keptCount,keptCount,List.countP_cons_of_pos rfl,
        List.countP_cons_of_neg (by simp [dropped])]
    | succ =>
      obtain ⟨marks,count⟩ := ih there
      refine ⟨.cons (Marked.refl item) marks,?_⟩
      rw [List.set_cons_succ,keptCount,keptCount,List.countP_cons,List.countP_cons]
      unfold keptCount at count
      omega

theorem protectParent_marks {index : Bytes → Option Nat} (kept : protectParent index items i = some next) :
    Marks items next ∧ keptCount next = keptCount items + 1 := by
  obtain ⟨item,_,kept⟩ := Option.bind_eq_some_iff.mp kept
  split at kept
  · cases kept
  · obtain ⟨p,_,kept⟩ := Option.bind_eq_some_iff.mp kept
    obtain ⟨parent,there,kept⟩ := Option.bind_eq_some_iff.mp kept
    split at kept
    · cases kept
    · rename_i dropped
      obtain rfl := Option.some.inj kept
      exact set_marks there (Bool.eq_false_of_not_eq_true dropped) .chain

theorem protectPass_exact (index : Bytes → Option Nat) (indices : List Nat) (items : List PlanItem) :
    Marks items (protectPass index indices items).1 ∧
      (if (protectPass index indices items).2 then
        keptCount items < keptCount (protectPass index indices items).1
      else (protectPass index indices items).1 = items ∧ ∀ i ∈ indices, protectParent index items i = none) := by
  induction indices generalizing items with
  | nil => exact ⟨marks_refl items,rfl,by simp⟩
  | cons i rest ih =>
    rw [protectPass]
    cases kept : protectParent index items i with
    | none =>
      obtain ⟨marks,outcome⟩ := ih items
      refine ⟨marks,?_⟩
      dsimp only
      split
      · rename_i changed
        rwa [if_pos changed] at outcome
      · rename_i same
        rw [if_neg same] at outcome
        exact ⟨outcome.1,List.forall_mem_cons.mpr ⟨kept,outcome.2⟩⟩
    | some next =>
      obtain ⟨first,_⟩ := protectParent_marks kept
      obtain ⟨marks,outcome⟩ := ih next
      refine ⟨marks_trans first marks,?_⟩
      dsimp only
      rw [if_pos rfl]
      split at outcome
      · omega
      · rw [outcome.1]
        omega

theorem marks_length (marks : Marks before after) : before.length = after.length :=
  List.Forall₂.length_eq marks

theorem marks_backups (marks : Marks before after) : after.map PlanItem.backup = before.map PlanItem.backup := by
  induction marks with
  | nil => rfl
  | cons head _ ih => rw [List.map_cons,List.map_cons,head.1,ih]

theorem forall₂_mem {R : α → β → Prop} (all : List.Forall₂ R left right) (member : a ∈ left) : ∃ b ∈ right, R a b := by
  obtain ⟨_,inside,rfl⟩ := List.mem_iff_getElem.mp member
  have other := inside
  rw [all.length_eq] at other
  exact ⟨_,List.getElem_mem other,all.get inside other⟩

theorem protectLoop_exact {index : Bytes → Option Nat} (done : protectLoop index passes items = .ok after) :
    Marks items after ∧ ∀ i < items.length, protectParent index after i = none := by
  induction passes generalizing items with
  | zero => cases done
  | succ _ ih =>
    obtain ⟨marks,outcome⟩ := protectPass_exact index (List.range items.length) items
    rw [protectLoop] at done
    dsimp only at done
    split at done
    · have size := marks_length marks
      obtain ⟨more,closed⟩ := ih done
      exact ⟨marks_trans marks more,fun i inside => closed i (by omega)⟩
    · rename_i same
      rw [if_neg same] at outcome
      obtain rfl := Except.ok.inj done
      rw [outcome.1]
      exact ⟨marks_refl items,fun i inside => outcome.2 i (List.mem_range.mpr inside)⟩

theorem protectLoop_finishes (index : Bytes → Option Nat) (passes : Nat) (items : List PlanItem)
    (enough : items.length < keptCount items + passes) : ∃ after, protectLoop index passes items = .ok after := by
  induction passes generalizing items with
  | zero =>
    have bound : keptCount items ≤ items.length := List.countP_le_length
    omega
  | succ _ ih =>
    obtain ⟨marks,outcome⟩ := protectPass_exact index (List.range items.length) items
    rw [protectLoop]
    dsimp only
    split
    · rename_i changed
      rw [if_pos changed] at outcome
      have size := marks_length marks
      exact ih _ (by omega)
    · exact ⟨_,rfl⟩

theorem protectKeptAncestors_finishes (items : List PlanItem) : ∃ after, protectKeptAncestors items = .ok after :=
  protectLoop_finishes _ _ items (by omega)

theorem byID_backups (same : after.map PlanItem.backup = before.map PlanItem.backup) : byID after = byID before := by
  have each : ∀ i : Nat, after[i]?.map (·.backup.id) = before[i]?.map (·.backup.id) := by
    intro i
    have backup := congrArg (fun backups : List Backup => backups[i]?.map Backup.id) same
    simp only [List.getElem?_map,Option.map_map] at backup
    exact backup
  have size := congrArg List.length same
  rw [List.length_map,List.length_map] at size
  funext id
  rw [byID,byID,size]
  simp only [each]

theorem byID_exact (distinct : (items.map (·.backup.id)).Nodup) (there : items[p]? = some item) :
    byID items item.backup.id = some p := by
  have bound : p < items.length := (List.getElem?_eq_some_iff.mp there).1
  have only : ∀ q, items[q]?.map (·.backup.id) = some item.backup.id → q = p := by
    intro q same
    have named : (items.map (·.backup.id))[p]? = (items.map (·.backup.id))[q]? := by
      rw [List.getElem?_map,List.getElem?_map,there,same]
      rfl
    exact ((List.getElem?_inj (by rwa [List.length_map]) distinct).mp named).symm
  unfold byID
  cases last : ((List.range items.length).filter
      (fun i => decide (items[i]?.map (·.backup.id) = some item.backup.id))).getLast? with
  | none =>
    have member : p ∈ (List.range items.length).filter
        (fun i => decide (items[i]?.map (·.backup.id) = some item.backup.id)) := by
      rw [List.mem_filter,there]
      exact ⟨List.mem_range.mpr bound,by simp⟩
    rw [List.getLast?_eq_none_iff.mp last] at member
    cases member
  | some q =>
    have member := List.mem_filter.mp (List.mem_of_getLast? last)
    rw [only q (of_decide_eq_true member.2)]

theorem protectKeptAncestors_settled (done : protectKeptAncestors items = .ok after) (childThere : child ∈ after)
    (kept : child.keep = true) (named : blank child.backup.parentID = false)
    (index : byID items child.backup.parentID = some p) (parentAt : after[p]? = some parent) : parent.keep = true := by
  obtain ⟨marks,closed⟩ := protectLoop_exact done
  obtain ⟨i,childAt⟩ := List.mem_iff_getElem?.mp childThere
  have inside : i < items.length := by
    rw [marks_length marks]
    exact (List.getElem?_eq_some_iff.mp childAt).1
  have settled := closed i inside
  simp only [protectParent,childAt,kept,named,index,parentAt,Option.bind_eq_bind,Option.bind_some] at settled
  by_contra dropped
  simp [dropped] at settled

theorem protectKeptAncestors_closed (done : protectKeptAncestors items = .ok after)
    (distinct : (items.map (·.backup.id)).Nodup) (childThere : child ∈ after) (parentThere : parent ∈ after)
    (kept : child.keep = true) (linked : child.backup.parentID = parent.backup.id)
    (named : blank child.backup.parentID = false) : parent.keep = true := by
  have backups := marks_backups (protectLoop_exact done).1
  have ids := congrArg (List.map Backup.id) backups
  rw [List.map_map,List.map_map] at ids
  obtain ⟨_,parentAt⟩ := List.mem_iff_getElem?.mp parentThere
  refine protectKeptAncestors_settled done childThere kept named ?_ parentAt
  rw [linked,← byID_backups backups]
  exact byID_exact (ids ▸ distinct) parentAt

def newest (a b : Backup) : Bool := decide ((backupTime b).instant ≤ (backupTime a).instant)

def current (clock now : Time) : Time := if now.isZero then clock.utc else now

section
variable {values : Values} {clock now : Time} {backups : List Backup} {rules : List RetentionRule} {plan : Plan}

structure Resolved (backups : List Backup) (plan : Plan) : Prop where
  backups : (plan.items.map PlanItem.backup).Perm backups
  isProtected : ∀ item ∈ plan.items, item.backup.isProtected = true → item.keep = true
  closed : ∀ child ∈ plan.items, ∀ parent ∈ plan.items, child.keep = true →
    child.backup.parentID = parent.backup.id → blank child.backup.parentID = false → parent.keep = true

theorem resolve_parts (resolved : resolve values clock backups rules now = .ok plan) : ∃ items,
    protectKeptAncestors items = .ok plan.items ∧ items.map PlanItem.backup = backups.mergeSort newest ∧
      ∀ item ∈ items, ∃ newer older, backups.mergeSort newest = newer ++ item.backup :: older ∧
        (item.keep = true ↔ item.backup.isProtected = true ∨
          Picked values (current clock now) (convertedDuration values) rules newer item.backup) := by
  obtain ⟨items,applied,rest⟩ := bind_ok_iff.mp resolved
  obtain ⟨_,done,returned⟩ := bind_ok_iff.mp rest
  obtain rfl := Except.ok.inj returned
  have scans := applyRules_scans applied
  have sorted : ((backups.map (fun backup => (⟨backup,false,[]⟩ : PlanItem))).mergeSort newestFirst) =
      (backups.mergeSort newest).map (fun backup => (⟨backup,false,[]⟩ : PlanItem)) :=
    (@List.map_mergeSort _ _ newest newestFirst _ backups (fun _ _ _ _ => rfl)).symm
  have start : (((backups.map (fun backup => (⟨backup,false,[]⟩ : PlanItem))).mergeSort newestFirst).map
      (fun item => if item.backup.isProtected then keep item .isProtected else item)).map PlanItem.backup =
        backups.mergeSort newest := by
    rw [sorted,List.map_map,List.map_map]
    refine (List.map_congr_left fun backup _ => ?_).trans (List.map_id _)
    dsimp only [Function.comp]
    split <;> rfl
  refine ⟨items,done,(marks_backups (scans_marks scans)).trans start,?_⟩
  intro item member
  obtain ⟨first,there,same,newer,older,split,kept⟩ := scans.mem member
  rw [start] at split
  refine ⟨newer,older,same ▸ split,?_⟩
  rw [kept,List.nil_append,same]
  refine or_congr_left ?_
  rw [sorted] at there
  obtain ⟨backup,listed,rfl⟩ := List.mem_map.mp there
  obtain ⟨backup,_,rfl⟩ := List.mem_map.mp listed
  split
  · rename_i guarded
    exact iff_of_true rfl guarded
  · rename_i free
    exact iff_of_false (by simp) free

theorem resolve_exact (distinct : (backups.map Backup.id).Nodup)
    (resolved : resolve values clock backups rules now = .ok plan) : Resolved backups plan := by
  obtain ⟨items,done,order,base⟩ := resolve_parts resolved
  have marks := (protectLoop_exact done).1
  have listed : (items.map PlanItem.backup).Perm backups := order ▸ backups.mergeSort_perm newest
  have names : (items.map (·.backup.id)).Nodup := by
    have ids := (listed.map Backup.id).nodup_iff.mpr distinct
    rwa [List.map_map] at ids
  refine ⟨?_,?_,?_⟩
  · rw [marks_backups marks]
    exact listed
  · intro item there guarded
    obtain ⟨before,beforeThere,same,stays⟩ := forall₂_mem (List.Forall₂.flip marks) there
    obtain ⟨_,_,_,keeps⟩ := base before beforeThere
    exact stays (keeps.mpr (Or.inl (same ▸ guarded)))
  · intro child childThere parent parentThere kept linked named
    exact protectKeptAncestors_closed done names childThere parentThere kept linked named

theorem Resolved.keep_iff (resolved : Resolved backups plan) (distinct : (backups.map Backup.id).Nodup)
    (member : backup ∈ backups) :
    ∃ item ∈ plan.items, item.backup = backup ∧ (backup.id ∈ plan.keepIDs ↔ item.keep = true) ∧
      (backup.id ∈ plan.dropIDs ↔ item.keep = false) := by
  obtain ⟨item,there,rfl⟩ := List.mem_map.mp (resolved.backups.mem_iff.mpr member)
  have only : ∀ other ∈ plan.items, other.backup.id = item.backup.id → other = item := by
    have names : (plan.items.map (fun item => item.backup.id)).Nodup := by
      have ids := (resolved.backups.map Backup.id).nodup_iff.mpr distinct
      rwa [List.map_map] at ids
    intro other otherThere same
    exact List.inj_on_of_nodup_map names otherThere there same
  refine ⟨item,there,rfl,?_,?_⟩
  · constructor
    · intro listed
      obtain ⟨other,otherKept,same⟩ := List.mem_map.mp listed
      obtain ⟨otherThere,kept⟩ := List.mem_filter.mp otherKept
      rwa [only other otherThere same] at kept
    · intro kept
      exact List.mem_map.mpr ⟨item,List.mem_filter.mpr ⟨there,kept⟩,rfl⟩
  · constructor
    · intro listed
      obtain ⟨other,otherDropped,same⟩ := List.mem_map.mp listed
      obtain ⟨otherThere,dropped⟩ := List.mem_filter.mp otherDropped
      rw [only other otherThere same] at dropped
      simpa using dropped
    · intro dropped
      exact List.mem_map.mpr ⟨item,List.mem_filter.mpr ⟨there,by simpa using dropped⟩,rfl⟩

def survivors (plan : Plan) (backups : List Backup) : List Backup :=
  backups.filter (fun backup => decide (backup.id ∉ plan.dropIDs))

theorem survivors_distinct (distinct : (backups.map Backup.id).Nodup) :
    ((survivors plan backups).map Backup.id).Nodup := distinct.sublist (List.filter_sublist.map Backup.id)

theorem Resolved.parent_survives (resolved : Resolved backups plan) (distinct : (backups.map Backup.id).Nodup)
    (here : child ∈ survivors plan backups) (linked : parentOf child = some up)
    (found : findBackup backups up = some parent) : parent ∈ survivors plan backups := by
  obtain ⟨childThere,remains⟩ := List.mem_filter.mp here
  obtain ⟨parentThere,named⟩ := findBackup_mem found
  obtain ⟨childItem,childListed,rfl,_,childDropped⟩ := resolved.keep_iff distinct childThere
  obtain ⟨parentItem,parentListed,rfl,_,parentDropped⟩ := resolved.keep_iff distinct parentThere
  have childKept : childItem.keep = true := by
    cases kept : childItem.keep with
    | true => rfl
    | false => exact absurd (childDropped.mpr kept) (of_decide_eq_true remains)
  unfold parentOf at linked
  split at linked
  · cases linked
  · rename_i some_parent
    have same : childItem.backup.parentID = parentItem.backup.id := (Option.some.inj linked).trans named.symm
    have parentKept := resolved.closed childItem childListed parentItem parentListed childKept same (Bool.not_eq_true _ ▸ some_parent)
    refine List.mem_filter.mpr ⟨parentThere,decide_eq_true ?_⟩
    intro dropped
    rw [parentDropped.mp dropped] at parentKept
    cases parentKept

theorem Resolved.walk_survives (resolved : Resolved backups plan) (distinct : (backups.map Backup.id).Nodup)
    (here : selected ∈ survivors plan backups)
    (walked : walk Backup.id parentOf (findBackup backups) fuel [] selected = .ok chain) :
    walk Backup.id parentOf (findBackup (survivors plan backups)) ((survivors plan backups).length + 1) [] selected =
      .ok chain := by
  obtain ⟨chained,different,apart⟩ := walk_sound walked
  obtain ⟨again,all⟩ := chained.refound here (fun child up parent childHere linked found =>
    have parentHere := resolved.parent_survives distinct childHere linked found
    ⟨parentHere,(findBackup_mem found).2 ▸ findBackup_exact (survivors_distinct distinct) parentHere⟩)
  have few : chain.length ≤ (survivors plan backups).length := by
    have listed : chain.map Backup.id ⊆ (survivors plan backups).map Backup.id := by
      intro id member
      obtain ⟨backup,inChain,rfl⟩ := List.mem_map.mp member
      exact List.mem_map_of_mem (all backup inChain)
    have size := (List.subperm_of_subset different listed).length_le
    rwa [List.length_map,List.length_map] at size
  exact walk_complete again (by omega) different apart

theorem retention_keeps_restore_plans (distinct : (backups.map Backup.id).Nodup)
    (resolved : resolve values clock backups rules now = .ok plan) :
    (∀ backup ∈ backups, backup.isProtected = true → backup.id ∉ plan.dropIDs) ∧
      ∀ backup ∈ backups, backup.id ∈ plan.keepIDs → ∀ request, request.backupID = backup.id →
        ∀ restore, buildPlan backups request = .ok restore →
          buildPlan (survivors plan backups) request = .ok restore := by
  have settled := resolve_exact distinct resolved
  constructor
  · intro backup member guarded dropped
    obtain ⟨item,listed,rfl,_,isDropped⟩ := settled.keep_iff distinct member
    have kept := settled.isProtected item listed guarded
    rw [isDropped.mp dropped] at kept
    cases kept
  · intro backup member kept request asked restore built
    obtain ⟨named,selected,chain,found,walked,rfl⟩ := buildPlan_exact.mp built
    obtain ⟨item,_,rfl,isKept,isDropped⟩ := settled.keep_iff distinct member
    have chosen : selected = item.backup := by
      rw [asked,findBackup_exact distinct member] at found
      exact (Option.some.inj found).symm
    subst chosen
    have here : item.backup ∈ survivors plan backups := by
      refine List.mem_filter.mpr ⟨member,decide_eq_true ?_⟩
      intro dropped
      have wrong := isDropped.mp dropped
      rw [isKept.mp kept] at wrong
      cases wrong
    exact buildPlan_exact.mpr ⟨named,item.backup,chain,asked ▸ findBackup_exact (survivors_distinct distinct) here,
      settled.walk_survives distinct here walked,rfl⟩

end

def backupOf (id parentID : Bytes) (seconds : Int) : Backup :=
  ⟨id,ascii "t1",ascii "s1",ascii "full",parentID,id,⟨seconds,0⟩,⟨seconds,0⟩,1,false⟩

def threeBackups : List Backup :=
  [backupOf (ascii "incr") (ascii "full") 3,backupOf (ascii "full") [] 2,backupOf (ascii "old") [] 1]

def noValues : Values := ⟨fun _ => 0,fun _ => none,fun _ => []⟩

def newestOne : List RetentionRule := [⟨ascii "count",[(ascii "n",.int 1)]⟩]

def keptPair : Plan := ⟨[⟨backupOf (ascii "incr") (ascii "full") 3,true,[.count]⟩,
  ⟨backupOf (ascii "full") [] 2,true,[.chain]⟩,⟨backupOf (ascii "old") [] 1,false,[]⟩]⟩

theorem newestOne_keeps_pair : resolve noValues ⟨9,0⟩ threeBackups newestOne ⟨9,0⟩ = .ok keptPair := by
  have sorted : (threeBackups.map (fun backup => (⟨backup,false,[]⟩ : PlanItem))).mergeSort newestFirst =
      threeBackups.map (fun backup => (⟨backup,false,[]⟩ : PlanItem)) :=
    List.mergeSort_of_pairwise (by decide)
  rw [resolve,sorted]
  rfl

theorem incremental_keeps_its_plan : ∃ restore, resolve noValues ⟨9,0⟩ threeBackups newestOne ⟨9,0⟩ = .ok keptPair ∧
      buildPlan threeBackups ⟨ascii "incr",[],⟨0,0⟩⟩ = .ok restore ∧
        buildPlan (survivors keptPair threeBackups) ⟨ascii "incr",[],⟨0,0⟩⟩ = .ok restore := by
  have distinct : (threeBackups.map Backup.id).Nodup := by decide
  refine ⟨_,newestOne_keeps_pair,rfl,?_⟩
  exact (retention_keeps_restore_plans distinct newestOne_keeps_pair).2 _ List.mem_cons_self (by decide) _ rfl _ rfl

end Kronos.RetentionSafety
