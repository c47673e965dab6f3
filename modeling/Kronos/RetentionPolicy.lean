import Kronos.RetentionSafety

namespace Kronos.RetentionPolicy
open Effect ByteRange Utf8 Strings Rfc3339 Retention Restore RetentionRules RetentionSafety

-- A set of backups that has with a member the backup its parent's id stands for.
def Closed (held : Backup → Prop) (index : Bytes → Option Nat) (backups : List Backup) : Prop :=
  ∀ child ∈ backups, held child → blank child.parentID = false → ∀ p parent,
    index child.parentID = some p → backups[p]? = some parent → held parent

def Within (held : Backup → Prop) (items : List PlanItem) : Prop := ∀ item ∈ items, item.keep = true → held item.backup

section
variable {held : Backup → Prop} {index : Bytes → Option Nat} {items : List PlanItem}

theorem protectParent_within (closed : Closed held index (items.map PlanItem.backup)) (within : Within held items)
    (kept : protectParent index items i = some next) : Within held next := by
  obtain ⟨child,childAt,kept⟩ := Option.bind_eq_some_iff.mp kept
  split at kept
  · cases kept
  · rename_i shown
    obtain ⟨p,found,kept⟩ := Option.bind_eq_some_iff.mp kept
    obtain ⟨parent,parentAt,kept⟩ := Option.bind_eq_some_iff.mp kept
    split at kept
    · cases kept
    · obtain rfl := Option.some.inj kept
      rw [not_or,Bool.not_eq_false,Bool.not_eq_true] at shown
      have there := List.mem_of_getElem? childAt
      have chosen := closed _ (List.mem_map_of_mem there) (within child there shown.1) shown.2 p parent.backup found
        (by rw [List.getElem?_map,parentAt]; rfl)
      intro item member itemKept
      rcases List.mem_or_eq_of_mem_set member with old | rfl
      · exact within item old itemKept
      · exact chosen

theorem protectPass_within (closed : Closed held index (items.map PlanItem.backup)) (within : Within held items)
    (indices : List Nat) : Within held (protectPass index indices items).1 := by
  induction indices generalizing items with
  | nil => exact within
  | cons i _ ih =>
    rw [protectPass]
    cases kept : protectParent index items i with
    | none => exact ih closed within
    | some =>
      have marks := (protectParent_marks kept).1
      exact ih (by rwa [marks_backups marks]) (protectParent_within closed within kept)

theorem protectLoop_within (closed : Closed held index (items.map PlanItem.backup)) (within : Within held items)
    (done : protectLoop index passes items = .ok after) : Within held after := by
  induction passes generalizing items with
  | zero => cases done
  | succ _ ih =>
    have marks := (protectPass_exact index (List.range items.length) items).1
    have next := protectPass_within closed within (List.range items.length)
    rw [protectLoop] at done
    dsimp only at done
    split at done
    · exact ih (by rwa [marks_backups marks]) next done
    · obtain rfl := Except.ok.inj done
      exact next

end

theorem byID_found {id : Bytes} (found : byID items id = some p)
    (there : (items.map PlanItem.backup)[p]? = some parent) : parent.id = id := by
  have member := (List.mem_filter.mp (List.mem_of_getLast? found)).2
  rw [List.getElem?_map] at there
  obtain ⟨_,itemAt,rfl⟩ := Option.map_eq_some_iff.mp there
  rw [itemAt] at member
  exact Option.some.inj (of_decide_eq_true member)

-- The least set with the protected backups, the picked ones and the listed
-- parents of its members.
inductive Wanted (pick : List Backup → Backup → Prop) (backups : List Backup) : Backup → Prop
  | isProtected {backup} : backup ∈ backups → backup.isProtected = true → Wanted pick backups backup
  | picked {newer backup older} : backups.mergeSort newest = newer ++ backup :: older → pick newer backup →
      Wanted pick backups backup
  | parent {child parent} : Wanted pick backups child → parent ∈ backups → parentOf child = some parent.id →
      Wanted pick backups parent

section
variable {pick pick' : List Backup → Backup → Prop}

theorem Wanted.listed (wanted : Wanted pick backups backup) : backup ∈ backups := by
  cases wanted with
  | isProtected there | parent _ there => exact there
  | picked split => exact (backups.mergeSort_perm newest).mem_iff.mp (split ▸ List.mem_append_right _ List.mem_cons_self)

end

section
variable {values : Values} {clock now : Time} {backups : List Backup} {rules : List RetentionRule} {plan : Plan}

def Kept (plan : Plan) (backup : Backup) : Prop := ∃ item ∈ plan.items, item.backup = backup ∧ item.keep = true

-- The kept backups have those that are protected or picked, and are within every
-- closed set that has them.
theorem resolve_least (resolved : resolve values clock backups rules now = .ok plan) : ∃ items,
    items.map PlanItem.backup = backups.mergeSort newest ∧ Closed (Kept plan) (byID items) (items.map PlanItem.backup) ∧
      (∀ backup ∈ backups, ∃ newer older, backups.mergeSort newest = newer ++ backup :: older ∧
        (backup.isProtected = true ∨ Picked values (current clock now) (convertedDuration values) rules newer backup →
          Kept plan backup)) ∧
        ∀ held, Closed held (byID items) (items.map PlanItem.backup) →
          (∀ newer backup older, backups.mergeSort newest = newer ++ backup :: older → backup.isProtected = true ∨
            Picked values (current clock now) (convertedDuration values) rules newer backup → held backup) →
              ∀ backup, Kept plan backup → held backup := by
  obtain ⟨items,done,order,base⟩ := resolve_parts resolved
  have marks := (protectLoop_exact done).1
  refine ⟨items,order,?_,?_,?_⟩
  · intro child _ childKept named p parent at_ there
    obtain ⟨_,childThere,rfl,kept⟩ := childKept
    rw [← marks_backups marks,List.getElem?_map] at there
    obtain ⟨parentItem,parentAt,rfl⟩ := Option.map_eq_some_iff.mp there
    exact ⟨parentItem,List.mem_of_getElem? parentAt,rfl,
      protectKeptAncestors_settled done childThere kept named at_ parentAt⟩
  · intro backup listed
    rw [← (backups.mergeSort_perm newest).mem_iff,← order] at listed
    obtain ⟨item,there,rfl⟩ := List.mem_map.mp listed
    obtain ⟨newer,older,split,keeps⟩ := base item there
    refine ⟨newer,older,split,fun chosen => ?_⟩
    obtain ⟨last,lastThere,same,stays⟩ := forall₂_mem marks there
    exact ⟨last,lastThere,same,stays (keeps.mpr chosen)⟩
  · rintro held closed chosen _ ⟨item,there,rfl,itemKept⟩
    refine protectLoop_within closed ?_ done item there itemKept
    intro first firstThere firstKept
    obtain ⟨newer,older,split,keeps⟩ := base first firstThere
    exact chosen newer _ older split (keeps.mp firstKept)

theorem kept_wanted (distinct : (backups.map Backup.id).Nodup)
    (resolved : resolve values clock backups rules now = .ok plan) : Kept plan backup ↔
      Wanted (Picked values (current clock now) (convertedDuration values) rules) backups backup := by
  obtain ⟨items,order,_,first,least⟩ := resolve_least resolved
  have settled := resolve_exact distinct resolved
  have perm := backups.mergeSort_perm newest
  have once : (backups.mergeSort newest).Nodup := perm.nodup_iff.mpr (List.Nodup.of_map Backup.id distinct)
  constructor
  · refine least _ ?_ ?_ backup
    · intro child _ wanted named p parent found there
      rw [order] at there
      refine .parent wanted (perm.mem_iff.mp (List.mem_of_getElem? there)) ?_
      rw [parentOf,if_neg (by simp [named]),byID_found found (order ▸ there)]
    · rintro newer backup older split (guarded | picked)
      · exact .isProtected (perm.mem_iff.mp (split ▸ List.mem_append_right _ List.mem_cons_self)) guarded
      · exact .picked split picked
  · intro wanted
    induction wanted with
    | isProtected there guarded =>
      obtain ⟨_,_,_,kept⟩ := first _ there
      exact kept (Or.inl guarded)
    | picked split picked =>
      obtain ⟨newer',older',split',kept⟩ := first _ (Wanted.picked split picked).listed
      have apart := List.nodup_middle.mp (split ▸ once)
      rw [split] at split'
      obtain ⟨rfl,_⟩ := (List.append_cons_inj_of_notMem
        (fun old => (List.nodup_cons.mp apart).1 (List.mem_append_left _ old))
        (fun old => (List.nodup_cons.mp apart).1 (List.mem_append_right _ old))).mp split'
      exact kept (Or.inr picked)
    | parent _ listed linked ih =>
      obtain ⟨childItem,childThere,rfl,childKept⟩ := ih
      obtain ⟨item,there,rfl⟩ := List.mem_map.mp (settled.backups.mem_iff.mpr listed)
      unfold parentOf at linked
      split at linked
      · cases linked
      · rename_i named
        exact ⟨item,there,rfl,settled.closed childItem childThere item there childKept (Option.some.inj linked)
          (Bool.not_eq_true _ ▸ named)⟩

theorem resolve_accepts : (∃ plan, resolve values clock backups rules now = .ok plan) ↔
    ∀ rule ∈ rules, ∃ after, applyRule values (current clock now) [] rule = .ok after := by
  constructor
  · rintro ⟨_,resolved⟩
    obtain ⟨items,applied,_⟩ := bind_ok_iff.mp resolved
    exact applyRules_accepts.mp ⟨items,applied⟩
  · intro accepted
    obtain ⟨items,applied⟩ := applyRules_accepts.mpr accepted
    obtain ⟨after,done⟩ := protectKeptAncestors_finishes items
    exact ⟨⟨after⟩,bind_ok_iff.mpr ⟨items,applied,bind_ok_iff.mpr ⟨after,done,rfl⟩⟩⟩

end

-- The sizes of the unprotected backups that the size rule marked.
def markedBytes (items : List PlanItem) : Int :=
  ((items.filter (fun item => !item.backup.isProtected && decide (Reason.size ∈ item.reasons))).map
    (·.backup.sizeBytes.toInt)).sum

-- Added up without bound, taking what the limit leaves room for, the total and the
-- next size stay below 2^63.
def Fits (limit : Int) : Int → List PlanItem → Prop
  | _,[] => True
  | total,item :: rest =>
    if item.backup.isProtected then Fits limit total rest
    else total + item.backup.sizeBytes.toInt < 2^63 ∧
      Fits limit (if total + item.backup.sizeBytes.toInt ≤ limit then total + item.backup.sizeBytes.toInt else total) rest

theorem markedBytes_cons (item : PlanItem) (rest : List PlanItem) : markedBytes (item :: rest) =
    (if item.backup.isProtected = false ∧ Reason.size ∈ item.reasons then item.backup.sizeBytes.toInt else 0) +
      markedBytes rest := by
  unfold markedBytes
  by_cases marked : item.backup.isProtected = false ∧ Reason.size ∈ item.reasons
  · rw [if_pos marked,List.filter_cons_of_pos (by simp [marked]),List.map_cons,List.sum_cons]
  · rw [if_neg marked,List.filter_cons_of_neg (by simpa using marked),Int.zero_add]

theorem sizeFrom_nonneg (sizes : ∀ backup ∈ items.map PlanItem.backup, 0 ≤ backup.sizeBytes.toInt)
    (maxBytes total : Int64) : 0 ≤ markedBytes (sizeFrom maxBytes total items) := by
  induction items generalizing total with
  | nil => exact Int.le_refl 0
  | cons item _ ih =>
    obtain ⟨_,later⟩ := List.forall_mem_cons.mp sizes
    have one : ∀ first rest', first.backup = item.backup → 0 ≤ markedBytes rest' → 0 ≤ markedBytes (first :: rest') := by
      intro first rest' same others
      rw [markedBytes_cons,same]
      split <;> omega
    rw [sizeFrom]
    split
    · exact one _ _ rfl (ih later _)
    · split
      · exact one _ _ rfl (ih later _)
      · exact one _ _ rfl (ih later _)

theorem sizeFrom_within_iff {maxBytes total : Int64} {items : List PlanItem}
    (sizes : ∀ backup ∈ items.map PlanItem.backup, 0 ≤ backup.sizeBytes.toInt)
    (unmarked : ∀ item ∈ items, Reason.size ∉ item.reasons) (nonneg : 0 ≤ total.toInt)
    (room : total.toInt ≤ maxBytes.toInt) :
    total.toInt + markedBytes (sizeFrom maxBytes total items) ≤ maxBytes.toInt ↔ Fits maxBytes.toInt total.toInt items := by
  induction items generalizing total with
  | nil => exact iff_of_true (by simpa [sizeFrom,markedBytes] using room) trivial
  | cons item rest ih =>
    obtain ⟨here,later⟩ := List.forall_mem_cons.mp sizes
    obtain ⟨clean,others⟩ := List.forall_mem_cons.mp unmarked
    have bound := maxBytes.toInt_lt
    have small := item.backup.sizeBytes.toInt_lt
    have sum : (total + item.backup.sizeBytes).toInt = (total.toInt + item.backup.sizeBytes.toInt).bmod (2^64) :=
      Int64.toInt_add total item.backup.sizeBytes
    rw [sizeFrom,Fits]
    split
    · rename_i guarded
      rw [markedBytes_cons,if_neg (by simp [guarded]),Int.zero_add]
      exact ih later others nonneg room
    · rename_i free
      by_cases wraps : total.toInt + item.backup.sizeBytes.toInt < 2^63
      · have exact_sum : (total + item.backup.sizeBytes).toInt = total.toInt + item.backup.sizeBytes.toInt := by
          rw [sum]
          exact Int.bmod_eq_of_le (by omega) (by omega)
        simp only [Int64.le_iff_toInt_le,exact_sum,wraps,true_and]
        split
        · have rest_iff := @ih (total + item.backup.sizeBytes) later others (by omega) (by omega)
          rw [exact_sum] at rest_iff
          rw [← rest_iff,markedBytes_cons,if_pos ⟨Bool.eq_false_of_not_eq_true free,by simp [keep,clean]⟩]
          change total.toInt + (item.backup.sizeBytes.toInt + _) ≤ _ ↔ _
          omega
        · rw [markedBytes_cons,if_neg (by simp [clean]),Int.zero_add]
          exact ih later others nonneg room
      · refine iff_of_false ?_ (fun fits => wraps fits.1)
        have wrapped : (total + item.backup.sizeBytes).toInt = total.toInt + item.backup.sizeBytes.toInt - 2^64 := by
          rw [sum,Int.bmod_def]
          split <;> omega
        have chosen : total + item.backup.sizeBytes ≤ maxBytes := Int64.le_iff_toInt_le.mpr (by omega)
        rw [if_pos chosen,markedBytes_cons,if_pos ⟨Bool.eq_false_of_not_eq_true free,by simp [keep,clean]⟩]
        have others := sizeFrom_nonneg later maxBytes (total + item.backup.sizeBytes)
        change ¬total.toInt + (item.backup.sizeBytes.toInt + _) ≤ _
        omega

theorem size_rule_within_limit_iff {values : Values} {params : List (Bytes × ParamValue)} {maxBytes : Int64}
    {items after : List PlanItem} (limit : intParam values params (ascii "max_bytes") [ascii "bytes"] = .ok maxBytes)
    (sizes : ∀ item ∈ items, 0 ≤ item.backup.sizeBytes.toInt) (unmarked : ∀ item ∈ items, Reason.size ∉ item.reasons)
    (applied : applySize values items params = .ok after) :
    markedBytes after ≤ maxBytes.toInt ↔ Fits maxBytes.toInt 0 items := by
  obtain ⟨_,found,rest⟩ := bind_ok_iff.mp applied
  rw [limit] at found
  cases found
  obtain ⟨positive,rest⟩ := guard_ok_iff.mp rest
  obtain rfl := Except.ok.inj rest
  have nonneg : 0 ≤ maxBytes.toInt := Int.not_lt.mp (fun negative => positive (Int64.lt_iff_toInt_lt.mpr negative))
  have within := @sizeFrom_within_iff maxBytes 0 items (List.forall_mem_map.mpr sizes) unmarked (Int.le_refl 0) nonneg
  rwa [show (0 : Int64).toInt = 0 from rfl,Int.zero_add] at within

def sized (size : Int64) : PlanItem := ⟨⟨[98],[116],[115],ascii "full",[],[109],⟨1,0⟩,⟨2,0⟩,size,false⟩,false,[]⟩

def limitOf (maxBytes : Int64) : List (Bytes × ParamValue) := [(ascii "max_bytes",.int maxBytes)]

theorem two_sizes_within_limit : markedBytes [keep (sized 6) .size,sized 7] ≤ 10 :=
  (@size_rule_within_limit_iff noValues (limitOf 10) 10 [sized 6,sized 7] _ rfl (by decide) (by decide) rfl).mpr
    (by simp [Fits]; decide)

-- The second size takes the total below zero, where every limit has room.
theorem wrapped_total_exceeds_limit : applySize noValues [sized 10,sized 9223372036854775807] (limitOf 10) =
    .ok [keep (sized 10) .size,keep (sized 9223372036854775807) .size] ∧
      markedBytes [keep (sized 10) .size,keep (sized 9223372036854775807) .size] = 9223372036854775817 := by
  decide

-- A time rule's parameter that is a number of seconds.
def Seconds (values : Values) (params : List (Bytes × ParamValue)) (n : Int64) : Prop :=
  ∃ value name, findParam params [ascii "duration",ascii "younger_than"] = some (value,name) ∧
    (value = .int n ∨ ∃ text, value = .float text ∧ values.truncate text = n)

def timeRule (params : List (Bytes × ParamValue)) : List RetentionRule := [⟨ascii "time",params⟩]

section
variable {values : Values} {params : List (Bytes × ParamValue)} {n duration : Int64} {clock now : Time}
  {backups : List Backup} {plan : Plan}

theorem Seconds.found (seconds : Seconds values params n) :
    durationParam values params (ascii "duration") [ascii "younger_than"] = .ok (n * 1000000000) := by
  obtain ⟨_,_,found,rfl | ⟨_,rfl,rfl⟩⟩ := seconds <;>
    simp only [durationParam,found,toInt64,Except.mapError,Except.map]

theorem time_picks {durationOf : List (Bytes × ParamValue) → Option Int} (found : durationOf params = some length) :
    Picked values now durationOf (timeRule params) newer backup ↔
      now.instant - (backupTime backup).instant ≤ length := by
  simp only [Picked,timeRule,List.mem_singleton,exists_eq_left]
  exact picks_time rfl found

theorem time_accepts (found : durationParam values params (ascii "duration") [ascii "younger_than"] = .ok duration) :
    (∃ after, applyRule values now items ⟨ascii "time",params⟩ = .ok after) ↔ ¬duration < 0 := by
  rw [applyRule,if_neg (by simp only; decide),if_pos rfl]
  constructor
  · rintro ⟨_,applied⟩
    obtain ⟨_,found',rest⟩ := bind_ok_iff.mp applied
    cases found.symm.trans found'
    exact (guard_ok_iff.mp rest).1
  · intro positive
    exact ⟨_,bind_ok_iff.mpr ⟨duration,found,guard_ok_iff.mpr ⟨positive,rfl⟩⟩⟩

theorem time_resolves (found : durationParam values params (ascii "duration") [ascii "younger_than"] = .ok duration) :
    (∃ plan, resolve values clock backups (timeRule params) now = .ok plan) ↔ ¬duration < 0 := by
  rw [resolve_accepts,timeRule,List.forall_mem_singleton,time_accepts found]

-- The backups a time rule keeps have those that are protected or young enough
-- and are within every closed set that has them.
theorem time_kept (found : durationParam values params (ascii "duration") [ascii "younger_than"] = .ok duration)
    (resolved : resolve values clock backups (timeRule params) now = .ok plan) :
    (∀ backup ∈ backups, backup.isProtected = true ∨
      (current clock now).instant - (backupTime backup).instant ≤ duration.toInt → Kept plan backup) ∧
      ∃ items, items.map PlanItem.backup = backups.mergeSort newest ∧
        Closed (Kept plan) (byID items) (items.map PlanItem.backup) ∧
          ∀ held, Closed held (byID items) (items.map PlanItem.backup) →
            (∀ backup ∈ backups, backup.isProtected = true ∨
              (current clock now).instant - (backupTime backup).instant ≤ duration.toInt → held backup) →
                ∀ backup, Kept plan backup → held backup := by
  obtain ⟨items,order,closed,first,least⟩ := resolve_least resolved
  refine ⟨?_,items,order,closed,?_⟩
  · intro backup listed chosen
    obtain ⟨_,_,_,kept⟩ := first backup listed
    exact kept (chosen.imp_right (time_picks (converted_found found)).mpr)
  · intro held closed chosen
    refine least held closed ?_
    intro newer backup older split kept
    exact chosen backup ((backups.mergeSort_perm newest).mem_iff.mp (split ▸ List.mem_append_right _ List.mem_cons_self))
      (kept.imp_right (time_picks (converted_found found)).mp)

end

def aged (age : Int) : Backup := ⟨[98],[116],[115],ascii "full",[],[109],⟨1-age,0⟩,⟨1-age,0⟩,1,false⟩

theorem aged_time (age : Int) : backupTime (aged age) = ⟨1-age,0⟩ := by
  unfold backupTime
  split <;> rfl

theorem aged_distinct (age : Int) : ([aged age].map Backup.id).Nodup := List.nodup_singleton _

theorem aged_wanted_iff {values : Values} {durationOf : List (Bytes × ParamValue) → Option Int} {age : Int}
    (found : durationOf params = some length) :
    Wanted (Picked values (current ⟨1,0⟩ ⟨1,0⟩) durationOf (timeRule params)) [aged age] (aged age) ↔ age ≤ length := by
  have young : ∀ newer, Picked values (current ⟨1,0⟩ ⟨1,0⟩) durationOf (timeRule params) newer (aged age) ↔
      age ≤ length := by
    intro newer
    rw [time_picks found,aged_time]
    change 1 - (1 - age) ≤ _ ↔ _
    omega
  constructor
  · intro wanted
    cases wanted with
    | isProtected _ guarded => cases guarded
    | picked _ chosen => exact (young _).mp chosen
    | parent below _ linked =>
      rw [List.mem_singleton.mp below.listed] at linked
      cases linked
  · intro small
    have sorted : [aged age].mergeSort newest = [] ++ aged age :: [] := List.mergeSort_singleton _
    exact .picked sorted ((young _).mpr small)

theorem aged_kept_iff (found : durationParam values params (ascii "duration") [ascii "younger_than"] = .ok duration)
    (resolved : resolve values ⟨1,0⟩ [aged age] (timeRule params) ⟨1,0⟩ = .ok plan) :
    Kept plan (aged age) ↔ age ≤ duration.toInt := by
  rw [kept_wanted (aged_distinct age) resolved]
  exact aged_wanted_iff (converted_found found)

theorem aged_resolves (found : durationParam values params (ascii "duration") [ascii "younger_than"] = .ok duration)
    (positive : ¬duration < 0) (age : Int) :
    ∃ plan, resolve values ⟨1,0⟩ [aged age] (timeRule params) ⟨1,0⟩ = .ok plan := (time_resolves found).mpr positive

theorem longer_time_keeps_more_iff {values : Values} {shorter longer : List (Bytes × ParamValue)} {m n : Int64}
    (first : Seconds values shorter m) (second : Seconds values longer n) :
    (∀ clock backups now less more, resolve values clock backups (timeRule shorter) now = .ok less →
      resolve values clock backups (timeRule longer) now = .ok more →
        (∀ backup, Kept less backup → Kept more backup) ∧ ∀ backup ∈ backups,
          (current clock now).instant - (backupTime backup).instant < n.toInt * 1000000000 → Kept more backup) ↔
      (¬m * 1000000000 < 0 → ¬n * 1000000000 < 0 →
        m * 1000000000 ≤ n * 1000000000 ∧ n.toInt * 1000000000 < 2^63) := by
  have product : (n * 1000000000).toInt = (n.toInt * 1000000000).bmod (2^64) := Int64.toInt_mul n 1000000000
  have shorterFound := first.found
  have longerFound := second.found
  generalize m * 1000000000 = short at *
  generalize n * 1000000000 = long at *
  constructor
  · intro keepsMore shortPositive longPositive
    constructor
    · obtain ⟨less,lessResolved⟩ := aged_resolves shorterFound shortPositive short.toInt
      obtain ⟨more,moreResolved⟩ := aged_resolves longerFound longPositive short.toInt
      have kept := (aged_kept_iff shorterFound lessResolved).mpr (Int.le_refl short.toInt)
      have still := (keepsMore _ _ _ _ _ lessResolved moreResolved).1 _ kept
      exact Int64.le_iff_toInt_le.mpr ((aged_kept_iff longerFound moreResolved).mp still)
    · by_contra large
      obtain ⟨less,lessResolved⟩ := aged_resolves shorterFound shortPositive (long.toInt + 1)
      obtain ⟨more,moreResolved⟩ := aged_resolves longerFound longPositive (long.toInt + 1)
      have bound := long.toInt_lt
      have kept := (keepsMore _ _ _ _ _ lessResolved moreResolved).2 _ (List.mem_singleton_self _)
        (by rw [aged_time]; change 1 - (1 - (long.toInt + 1)) < _; omega)
      have young := (aged_kept_iff longerFound moreResolved).mp kept
      omega
  · intro fits clock backups now less more lessResolved moreResolved
    have longPositive := (time_resolves longerFound).mp ⟨more,moreResolved⟩
    obtain ⟨ordered,_⟩ := fits ((time_resolves shorterFound).mp ⟨less,lessResolved⟩) longPositive
    rw [Int64.le_iff_toInt_le] at ordered
    rw [Int64.lt_iff_toInt_lt,Int.not_lt] at longPositive
    obtain ⟨_,_,order,_,least⟩ := time_kept shorterFound lessResolved
    obtain ⟨chosen,_,order',closed,_⟩ := time_kept longerFound moreResolved
    constructor
    · apply least
      · have same := order.trans order'.symm
        rw [byID_backups same,same]
        exact closed
      · rintro backup listed (guarded | young)
        · exact chosen backup listed (Or.inl guarded)
        · exact chosen backup listed (Or.inr (Int.le_trans young ordered))
    · intro backup listed young
      refine chosen backup listed (Or.inr ?_)
      change 0 ≤ long.toInt at longPositive
      by_cases negative : n.toInt < 0
      · omega
      · rw [product,Int.bmod_eq_of_le (by omega) (by omega)]
        omega

def inSeconds (n : Int64) : List (Bytes × ParamValue) := [(ascii "duration",.int n)]

theorem inSeconds_seconds (n : Int64) : Seconds noValues (inSeconds n) n := ⟨.int n,ascii "duration",rfl,Or.inl rfl⟩

theorem two_hours_keep_more : ∃ less more,
    resolve noValues ⟨1,0⟩ [aged 10000000000] (timeRule (inSeconds 3600)) ⟨1,0⟩ = .ok less ∧
      resolve noValues ⟨1,0⟩ [aged 10000000000] (timeRule (inSeconds 7200)) ⟨1,0⟩ = .ok more ∧
        Kept less (aged 10000000000) ∧ Kept more (aged 10000000000) := by
  obtain ⟨less,lessResolved⟩ := aged_resolves (inSeconds_seconds 3600).found (by decide) 10000000000
  obtain ⟨more,moreResolved⟩ := aged_resolves (inSeconds_seconds 7200).found (by decide) 10000000000
  have kept := (aged_kept_iff (inSeconds_seconds 3600).found lessResolved).mpr (by decide)
  exact ⟨less,more,lessResolved,moreResolved,kept,
    ((longer_time_keeps_more_iff (inSeconds_seconds 3600) (inSeconds_seconds 7200)).mpr (by decide) _ _ _ _ _
      lessResolved moreResolved).1 _ kept⟩

-- An hour keeps a backup of ten seconds; 18446744074 seconds are 290448384
-- nanoseconds in 64 bits and do not.
theorem wrapped_duration_drops : ∃ less more, Seconds noValues (inSeconds 3600) 3600 ∧
    Seconds noValues (inSeconds 18446744074) 18446744074 ∧
      resolve noValues ⟨1,0⟩ [aged 10000000000] (timeRule (inSeconds 3600)) ⟨1,0⟩ = .ok less ∧
        resolve noValues ⟨1,0⟩ [aged 10000000000] (timeRule (inSeconds 18446744074)) ⟨1,0⟩ = .ok more ∧
          Kept less (aged 10000000000) ∧ ¬Kept more (aged 10000000000) := by
  obtain ⟨less,lessResolved⟩ := aged_resolves (inSeconds_seconds 3600).found (by decide) 10000000000
  obtain ⟨more,moreResolved⟩ := aged_resolves (inSeconds_seconds 18446744074).found (by decide) 10000000000
  refine ⟨less,more,inSeconds_seconds _,inSeconds_seconds _,lessResolved,moreResolved,?_,?_⟩
  · exact (aged_kept_iff (inSeconds_seconds 3600).found lessResolved).mpr (by decide)
  · intro kept
    exact absurd ((aged_kept_iff (inSeconds_seconds 18446744074).found moreResolved).mp kept) (by decide)

end Kronos.RetentionPolicy
