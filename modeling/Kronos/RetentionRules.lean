import Mathlib.Data.List.Dedup
import Mathlib.Data.List.Perm.Subperm
import Kronos.Retention

namespace Kronos.RetentionRules
open Effect ByteRange Utf8 Decimal Calendar Rfc3339 Retention

-- The number of the period a time is in, in UTC; weeks start on Mondays.
def number (period : Period) (t : Time) : Int :=
  match period with
  | .daily => t.utc.day
  | .weekly => t.utc.day / 7
  | .monthly => yearOf t.utc.day * 12 + monthOf t.utc.day
  | .yearly => yearOf t.utc.day

theorem yearText_inj : Function.Injective yearText := by
  intro a b same
  unfold yearText at same
  split at same <;> split at same
  · have equal := atLeast_inj 4 (List.cons.inj same).2
    omega
  · rename_i _ positive
    have sign := (atLeast_sign 4 b).mp (same ▸ rfl)
    exact absurd sign positive
  · rename_i positive _
    have sign := (atLeast_sign 4 a).mp (same ▸ rfl)
    exact absurd sign positive
  · exact atLeast_inj 4 same

theorem twoDigits (nonneg : 0 ≤ n) (small : n < 100) : (atLeast 2 n).length = 2 := by
  have each : ∀ k < 100, (atLeast 2 (k : Nat)).length = 2 := by decide
  have found := each n.toNat (by omega)
  rwa [Int.toNat_of_nonneg nonneg] at found

-- Texts that end in two digits are the same when both their parts are.
theorem ends_inj (mark : Bytes) {a b : Bytes} {m n : Int} (low : 0 ≤ m ∧ m < 100) (high : 0 ≤ n ∧ n < 100) :
    a ++ (mark ++ atLeast 2 m) = b ++ (mark ++ atLeast 2 n) ↔ a = b ∧ m = n := by
  constructor
  · intro same
    obtain ⟨front,back⟩ := List.append_inj' same (by
      rw [List.length_append,List.length_append,twoDigits low.1 low.2,twoDigits high.1 high.2])
    exact ⟨front,atLeast_inj 2 (List.append_cancel_left back)⟩
  · rintro ⟨rfl,rfl⟩
    rfl

theorem isoWeek_exact (a b : Int) : isoWeek a = isoWeek b ↔ a / 7 = b / 7 := by
  constructor
  · intro same
    obtain ⟨year,week⟩ := Prod.mk.inj same
    rw [← year] at week
    omega
  · intro same
    have thursday : a - a % 7 + 3 = b - b % 7 + 3 := by omega
    simp only [isoWeek,thursday]

theorem isoWeek_bounds (day : Int) : 0 ≤ (isoWeek day).2 ∧ (isoWeek day).2 < 100 := by
  obtain ⟨_,_⟩ := yearOf_bounds (day - day % 7 + 3)
  have next := yearStart_next (yearOf (day - day % 7 + 3))
  have leap := leapDay_bounds (yearOf (day - day % 7 + 3))
  simp only [isoWeek]
  omega

theorem date_bounds (day : Int) :
    (0 ≤ dayOf day ∧ dayOf day < 100) ∧ 0 ≤ (monthOf day : Int) ∧ (monthOf day : Int) < 100 := by
  obtain ⟨low,high,_,_⟩ := monthOf_bounds day
  have days := dayOf_bounds day
  have size := daysIn_bounds (yearOf day) low high
  omega

theorem yearMonth_inj (a b : Int) : yearText (yearOf a) ++ 45 :: atLeast 2 (monthOf a) =
    yearText (yearOf b) ++ 45 :: atLeast 2 (monthOf b) ↔ yearOf a = yearOf b ∧ monthOf a = monthOf b := by
  have parts := @ends_inj [45] (yearText (yearOf a)) (yearText (yearOf b)) _ _ (date_bounds a).2 (date_bounds b).2
  rw [yearText_inj.eq_iff,Int.ofNat_inj] at parts
  exact parts

-- The keys of the source tell periods apart.
theorem key_exact (period : Period) (s t : Time) : period.key s = period.key t ↔ number period s = number period t := by
  cases period with
  | daily =>
    have parts := @ends_inj [45] (yearText (yearOf s.utc.day) ++ 45 :: atLeast 2 (monthOf s.utc.day))
      (yearText (yearOf t.utc.day) ++ 45 :: atLeast 2 (monthOf t.utc.day)) _ _ (date_bounds s.utc.day).1
      (date_bounds t.utc.day).1
    rw [yearMonth_inj,List.append_assoc,List.append_assoc] at parts
    refine parts.trans ⟨?_,?_⟩
    · rintro ⟨⟨year,month⟩,day⟩
      unfold dayOf at day
      rw [year,month] at day
      change s.utc.day = t.utc.day
      omega
    · intro same
      change s.utc.day = t.utc.day at same
      rw [same]
      exact ⟨⟨rfl,rfl⟩,rfl⟩
  | weekly =>
    simp only [Period.key,number,List.append_assoc]
    rw [ends_inj _ (isoWeek_bounds s.utc.day) (isoWeek_bounds t.utc.day),(atLeast_inj 4).eq_iff,← Prod.ext_iff,
      isoWeek_exact]
  | monthly =>
    have first := monthOf_bounds s.utc.day
    have second := monthOf_bounds t.utc.day
    simp only [Period.key,number,yearMonth_inj]
    omega
  | yearly => exact yearText_inj.eq_iff

-- What a walk over the items from the newest on does: each item stays kept or is
-- picked, by its backup and the newer ones.
inductive Scans (pick : List Backup → Backup → Prop) : List Backup → List PlanItem → List PlanItem → Prop
  | nil {newer} : Scans pick newer [] [] | cons {newer item item' rest rest'} : item'.backup = item.backup →
      (item'.keep = true ↔ item.keep = true ∨ pick newer item.backup) →
        Scans pick (newer ++ [item.backup]) rest rest' → Scans pick newer (item :: rest) (item' :: rest')

theorem Scans.trans {pick pick' : List Backup → Backup → Prop} (first : Scans pick newer a b)
    (second : Scans pick' newer b c) :
    Scans (fun newer backup => pick newer backup ∨ pick' newer backup) newer a c := by
  induction first generalizing c with
  | nil =>
    cases second
    exact .nil
  | cons same kept _ ih =>
    cases second with
    | cons same' kept' later =>
      rw [same] at later kept'
      exact .cons (same'.trans same) (by rw [kept',kept,or_assoc]) (ih later)

theorem Scans.refl (newer : List Backup) (items : List PlanItem) : Scans (fun _ _ => False) newer items items := by
  induction items generalizing newer with
  | nil => exact .nil
  | cons _ _ ih => exact .cons rfl (by simp) (ih _)

theorem Scans.congr {pick pick' : List Backup → Backup → Prop} (scans : Scans pick newer a b)
    (same : ∀ newer backup, pick newer backup ↔ pick' newer backup) : Scans pick' newer a b := by
  induction scans with
  | nil => exact .nil
  | cons equal kept _ ih => exact .cons equal (by rw [kept,same]) ih

theorem Scans.mem {pick : List Backup → Backup → Prop} (scans : Scans pick newer a b) (member : item' ∈ b) :
    ∃ item ∈ a, item'.backup = item.backup ∧
      ∃ before after, a.map PlanItem.backup = before ++ item.backup :: after ∧
        (item'.keep = true ↔ item.keep = true ∨ pick (newer ++ before) item.backup) := by
  induction scans with
  | nil => cases member
  | @cons newer item first rest rest' same kept _ ih =>
    rcases List.mem_cons.mp member with rfl | later
    · exact ⟨item,List.mem_cons_self,same,[],rest.map PlanItem.backup,rfl,by rwa [List.append_nil]⟩
    · obtain ⟨found,there,equal,before,after,split,_⟩ := ih later
      refine ⟨found,List.mem_cons_of_mem _ there,equal,item.backup :: before,after,?_,?_⟩
      · rw [List.map_cons,split,List.cons_append]
      · rwa [List.append_cons]

def ofType (type : Bytes) (backup : Backup) : Bool := type = [] || backup.type = type

-- The size rule's total after the newer backups.
def taken (maxBytes : Int64) (newer : List Backup) : Int64 :=
  newer.foldl (fun total backup =>
    if backup.isProtected then total
    else if total + backup.sizeBytes ≤ maxBytes then total + backup.sizeBytes else total) 0

def numbers (period : Period) (backups : List Backup) : List Int :=
  backups.map (fun backup => number period (backupTime backup))

-- What the source makes of it in 64 bits.
def convertedDuration (values : Values) (params : List (Bytes × ParamValue)) : Option Int :=
  (durationParam values params (ascii "duration") [ascii "younger_than"]).toOption.map Int64.toInt

section
variable (values : Values) (now : Time) (durationOf : List (Bytes × ParamValue) → Option Int)

-- What a rule says of a backup and the ones that are newer.
inductive Picks (rule : RetentionRule) (newer : List Backup) (backup : Backup) : Prop
  | count (n : Int64) : rule.kind = ascii "count" →
      intParam values rule.params (ascii "n") [ascii "keep",ascii "count"] = .ok n →
        ofType (stringParam values rule.params (ascii "type")) backup = true →
          newer.countP (ofType (stringParam values rule.params (ascii "type"))) < n.toInt → Picks rule newer backup
  | time (duration : Int) : rule.kind = ascii "time" → durationOf rule.params = some duration →
      now.instant - (backupTime backup).instant ≤ duration → Picks rule newer backup
  | size (maxBytes : Int64) : rule.kind = ascii "size" →
      intParam values rule.params (ascii "max_bytes") [ascii "bytes"] = .ok maxBytes → backup.isProtected = false →
        taken maxBytes newer + backup.sizeBytes ≤ maxBytes → Picks rule newer backup
  | gfs (period : Period) (limit : Int64) : rule.kind = ascii "gfs" →
      optionalIntParam values rule.params (ascii period.name) = .ok limit →
        number period (backupTime backup) ∉ numbers period newer → (numbers period newer).dedup.length < limit.toInt →
          Picks rule newer backup

def Picked (rules : List RetentionRule) (newer : List Backup) (backup : Backup) : Prop :=
  ∃ rule ∈ rules, Picks values now durationOf rule newer backup

end

theorem countFrom_scans (n : Int64) (type : Bytes) (newer : List Backup) (kept : Nat)
    (items : List PlanItem) (counted : (kept : Int) = min (newer.countP (ofType type) : Int) n.toInt) :
    Scans (fun newer backup => ofType type backup = true ∧ newer.countP (ofType type) < n.toInt) newer items
      (countFrom n type kept items) := by
  induction items generalizing newer kept with
  | nil => exact .nil
  | cons item rest ih =>
    have grows : (newer ++ [item.backup]).countP (ofType type) =
        newer.countP (ofType type) + [item.backup].countP (ofType type) := List.countP_append
    rw [List.countP_singleton] at grows
    rw [countFrom]
    split
    · rename_i other
      have no : ofType type item.backup = false := by simp [ofType,other.1,other.2]
      rw [no] at grows
      exact .cons rfl (by simp [no]) (ih _ kept (by rw [grows]; simpa using counted))
    · rename_i fits
      have yes : ofType type item.backup = true := by
        simp only [ofType,Bool.or_eq_true,decide_eq_true_eq]
        exact Decidable.or_iff_not_imp_left.mpr (fun some_type => Decidable.not_not.mp (fun other => fits ⟨some_type,other⟩))
      rw [yes,if_pos rfl] at grows
      split
      · refine .cons rfl (iff_of_true rfl (Or.inr ⟨yes,by omega⟩)) (ih _ (kept+1) ?_)
        omega
      · refine .cons rfl ⟨Or.inl,fun found => found.elim id (fun picked => ?_)⟩ (ih _ kept (by rw [grows]; omega))
        omega

theorem applyTime_scans (now : Time) (duration : Int64) (newer : List Backup) (items : List PlanItem) :
    Scans (fun _ backup => now.instant - (backupTime backup).instant ≤ duration.toInt) newer items
      (items.map (fun item => if now.instant - duration.toInt ≤ (backupTime item.backup).instant then keep item .time
        else item)) := by
  induction items generalizing newer with
  | nil => exact .nil
  | cons _ _ ih =>
    rw [List.map_cons]
    split
    · refine .cons rfl (iff_of_true rfl (Or.inr (by omega))) (ih _)
    · refine .cons rfl ⟨Or.inl,fun found => found.elim id (fun picked => by omega)⟩ (ih _)

theorem sizeFrom_scans (maxBytes : Int64) (newer : List Backup) (items : List PlanItem) :
    Scans (fun newer backup => backup.isProtected = false ∧ taken maxBytes newer + backup.sizeBytes ≤ maxBytes)
      newer items (sizeFrom maxBytes (taken maxBytes newer) items) := by
  induction items generalizing newer with
  | nil => exact .nil
  | cons item rest ih =>
    have later := ih (newer ++ [item.backup])
    rw [taken,List.foldl_append,List.foldl_cons,List.foldl_nil,← taken] at later
    rw [sizeFrom]
    split
    · rename_i guarded
      rw [if_pos guarded] at later
      exact .cons rfl (by simp [guarded]) later
    · rename_i open_
      rw [if_neg open_] at later
      split
      · rename_i room
        rw [if_pos room] at later
        exact .cons rfl (iff_of_true rfl (Or.inr ⟨Bool.eq_false_of_not_eq_true open_,room⟩)) later
      · rename_i full
        rw [if_neg full] at later
        exact .cons rfl ⟨Or.inl,fun found => found.elim id (fun picked => absurd picked.2 full)⟩ later

def Fresh (newer : List Backup) (backup : Backup) (kind : Period × Int64) : Prop :=
  number kind.1 (backupTime backup) ∉ numbers kind.1 newer ∧ (numbers kind.1 newer).dedup.length < kind.2.toInt

def Slot.kind (slot : Slot) : Period × Int64 := (slot.period,slot.limit)

-- A slot has seen the period of every newer backup, or as many as it may keep;
-- none twice.
def Slot.Follows (newer : List Backup) (slot : Slot) : Prop :=
  ∃ times : List Time, slot.seen = times.map slot.period.key ∧ (times.map (number slot.period)).Nodup ∧
    times.map (number slot.period) ⊆ numbers slot.period newer ∧
      (slot.seen.length < slot.limit.toInt → numbers slot.period newer ⊆ times.map (number slot.period))

theorem visit_follows (follows : Slot.Follows newer slot) (item : PlanItem) :
    Slot.Follows (newer ++ [item.backup]) (visit item slot).2 ∧ Slot.kind (visit item slot).2 = Slot.kind slot ∧
      (visit item slot).1.backup = item.backup ∧
        ((visit item slot).1.keep = true ↔ item.keep = true ∨ Fresh newer item.backup (Slot.kind slot)) := by
  obtain ⟨times,seen,distinct,known,all⟩ := follows
  have size : slot.seen.length = (times.map (number slot.period)).length := by
    rw [seen,List.length_map,List.length_map]
  have few : (times.map (number slot.period)).length ≤ (numbers slot.period newer).dedup.length :=
    (List.subperm_of_subset distinct (fun k member => List.mem_dedup.mpr (known member))).length_le
  have more : numbers slot.period (newer ++ [item.backup]) =
      numbers slot.period newer ++ [number slot.period (backupTime item.backup)] := List.map_append
  have grows : times.map (number slot.period) ⊆ numbers slot.period (newer ++ [item.backup]) := by
    rw [more]
    exact fun k member => List.mem_append_left _ (known member)
  unfold visit
  split
  · rename_i room
    have exactly : (numbers slot.period newer).dedup.length ≤ (times.map (number slot.period)).length :=
      (List.subperm_of_subset (List.nodup_dedup _) (fun k member => all room (List.mem_dedup.mp member))).length_le
    have listed : slot.period.key (backupTime item.backup) ∈ slot.seen ↔
        number slot.period (backupTime item.backup) ∈ numbers slot.period newer := by
      have same : slot.period.key (backupTime item.backup) ∈ slot.seen ↔
          number slot.period (backupTime item.backup) ∈ times.map (number slot.period) := by
        simp only [seen,List.mem_map,key_exact]
      exact same.trans ⟨fun member => known member,fun member => all room member⟩
    dsimp only
    split
    · rename_i old
      refine ⟨⟨times,seen,distinct,grows,fun _ => ?_⟩,rfl,rfl,⟨Or.inl,fun found => found.elim id ?_⟩⟩
      · rw [more]
        intro k member
        rcases List.mem_append.mp member with before | new
        · exact all room before
        · rw [List.mem_singleton.mp new]
          exact all room (listed.mp old)
      · exact fun fresh => absurd (listed.mp old) fresh.1
    · rename_i new
      have fresh := mt listed.mpr new
      refine ⟨⟨backupTime item.backup :: times,?_,?_,?_,fun _ => ?_⟩,rfl,rfl,iff_of_true rfl (Or.inr ⟨fresh,?_⟩)⟩
      · rw [List.map_cons,← seen]
      · exact List.nodup_cons.mpr ⟨fun member => fresh (known member),distinct⟩
      · rw [more]
        exact List.cons_subset.mpr ⟨List.mem_append_right _ List.mem_cons_self,
          fun k member => List.mem_append_left _ (known member)⟩
      · rw [more]
        intro k member
        rcases List.mem_append.mp member with before | last
        · exact List.mem_cons_of_mem _ (all room before)
        · rw [List.mem_singleton.mp last]
          exact List.mem_cons_self
      · change ((numbers slot.period newer).dedup.length : Int) < slot.limit.toInt
        omega
  · rename_i full
    refine ⟨⟨times,seen,distinct,grows,fun room => absurd room full⟩,rfl,rfl,⟨Or.inl,fun found => found.elim id ?_⟩⟩
    rintro ⟨_,room⟩
    change ((numbers slot.period newer).dedup.length : Int) < slot.limit.toInt at room
    omega

theorem visitAll_follows (follows : ∀ slot ∈ slots, Slot.Follows newer slot) (item : PlanItem) :
    (∀ slot ∈ (visitAll item slots).2, Slot.Follows (newer ++ [item.backup]) slot) ∧
      (visitAll item slots).2.map Slot.kind = slots.map Slot.kind ∧ (visitAll item slots).1.backup = item.backup ∧
        ((visitAll item slots).1.keep = true ↔
          item.keep = true ∨ ∃ kind ∈ slots.map Slot.kind, Fresh newer item.backup kind) := by
  induction slots generalizing item with
  | nil => exact ⟨nofun,rfl,rfl,by simp [visitAll]⟩
  | cons slot _ ih =>
    obtain ⟨first,others⟩ := List.forall_mem_cons.mp follows
    obtain ⟨one,kind,same,kept⟩ := visit_follows first item
    obtain ⟨later,kinds,same',kept'⟩ := ih others (visit item slot).1
    rw [same] at later kept'
    refine ⟨List.forall_mem_cons.mpr ⟨one,later⟩,congrArg₂ List.cons kind kinds,same'.trans same,?_⟩
    refine kept'.trans ?_
    rw [kept,List.map_cons,or_assoc]
    simp only [List.mem_cons,exists_eq_or_imp]

theorem gfsFrom_scans (follows : ∀ slot ∈ slots, Slot.Follows newer slot) (items : List PlanItem) :
    Scans (fun newer backup => ∃ kind ∈ slots.map Slot.kind, Fresh newer backup kind) newer
      items (gfsFrom slots items) := by
  induction items generalizing newer slots with
  | nil => exact .nil
  | cons item _ ih =>
    obtain ⟨later,kinds,same,kept⟩ := visitAll_follows follows item
    have others := ih later
    rw [kinds] at others
    exact .cons same kept others

section
variable {values : Values} {now : Time} {items after : List PlanItem}

section
variable {rule : RetentionRule} {newer : List Backup} {backup : Backup}
  {durationOf other : List (Bytes × ParamValue) → Option Int}

theorem Picks.congr (same : rule.kind = ascii "time" → durationOf rule.params = other rule.params)
    (picked : Picks values now durationOf rule newer backup) : Picks values now other rule newer backup := by
  cases picked with
  | count n kind found fits room => exact .count n kind found fits room
  | time duration kind found young => exact .time duration kind (same kind ▸ found) young
  | size maxBytes kind found free room => exact .size maxBytes kind found free room
  | gfs period limit kind found fresh room => exact .gfs period limit kind found fresh room

theorem picks_count (kind : rule.kind = ascii "count")
    (found : intParam values rule.params (ascii "n") [ascii "keep",ascii "count"] = .ok n) :
    Picks values now durationOf rule newer backup ↔ ofType (stringParam values rule.params (ascii "type")) backup = true ∧
      newer.countP (ofType (stringParam values rule.params (ascii "type"))) < n.toInt := by
  constructor
  · intro picked
    cases picked with
    | count _ _ found' fits room =>
      cases found.symm.trans found'
      exact ⟨fits,room⟩
    | time _ other | size _ other | gfs _ _ other => exact absurd (kind.symm.trans other) (by decide)
  · exact fun picked => .count n kind found picked.1 picked.2

theorem picks_time (kind : rule.kind = ascii "time") (found : durationOf rule.params = some duration) :
    Picks values now durationOf rule newer backup ↔ now.instant - (backupTime backup).instant ≤ duration := by
  constructor
  · intro picked
    cases picked with
    | time _ _ found' young =>
      cases found.symm.trans found'
      exact young
    | count _ other | size _ other | gfs _ _ other => exact absurd (kind.symm.trans other) (by decide)
  · exact fun picked => .time duration kind found picked

theorem picks_size (kind : rule.kind = ascii "size")
    (found : intParam values rule.params (ascii "max_bytes") [ascii "bytes"] = .ok maxBytes) :
    Picks values now durationOf rule newer backup ↔
      backup.isProtected = false ∧ taken maxBytes newer + backup.sizeBytes ≤ maxBytes := by
  constructor
  · intro picked
    cases picked with
    | size _ _ found' free room =>
      cases found.symm.trans found'
      exact ⟨free,room⟩
    | count _ other | time _ other | gfs _ _ other => exact absurd (kind.symm.trans other) (by decide)
  · exact fun picked => .size maxBytes kind found picked.1 picked.2

theorem picks_gfs (kind : rule.kind = ascii "gfs") : Picks values now durationOf rule newer backup ↔
    ∃ period limit, optionalIntParam values rule.params (ascii period.name) = .ok limit ∧
      Fresh newer backup (period,limit) := by
  constructor
  · intro picked
    cases picked with
    | gfs period limit _ found fresh room => exact ⟨period,limit,found,fresh,room⟩
    | count _ other | time _ other | size _ other => exact absurd (kind.symm.trans other) (by decide)
  · rintro ⟨period,limit,found,fresh,room⟩
    exact .gfs period limit kind found fresh room

end

theorem converted_found (found : durationParam values params (ascii "duration") [ascii "younger_than"] = .ok duration) :
    convertedDuration values params = some duration.toInt := by
  rw [convertedDuration,found]
  rfl

-- An accepted rule has one effect on all lists of items: it keeps what it picks.
def HasEffect (values : Values) (now : Time) (rule : RetentionRule) : Prop :=
  ∃ effect : List PlanItem → List PlanItem, (∀ items, applyRule values now items rule = .ok (effect items)) ∧
    ∀ items, Scans (Picks values now (convertedDuration values) rule) [] items (effect items)

theorem count_effect (kind : rule.kind = ascii "count") (applied : applyCount values items rule.params = .ok after) :
    HasEffect values now rule := by
  obtain ⟨n,found,rest⟩ := bind_ok_iff.mp applied
  obtain ⟨positive,_⟩ := guard_ok_iff.mp rest
  have nonneg : 0 ≤ n.toInt := Int.not_lt.mp (fun negative => positive (Int64.lt_iff_toInt_lt.mpr negative))
  refine ⟨countFrom n (stringParam values rule.params (ascii "type")) 0,?_,?_⟩
  · intro items
    rw [applyRule,if_pos kind,applyCount,found]
    exact if_neg positive
  · intro items
    exact (countFrom_scans n _ [] 0 items (by simp [nonneg])).congr (fun _ _ => (picks_count kind found).symm)

theorem time_effect (kind : rule.kind = ascii "time") (applied : applyTime values now items rule.params = .ok after) :
    HasEffect values now rule := by
  obtain ⟨duration,found,rest⟩ := bind_ok_iff.mp applied
  obtain ⟨positive,_⟩ := guard_ok_iff.mp rest
  have converted := converted_found found
  refine ⟨_,?_,fun items => (applyTime_scans now duration [] items).congr (fun _ _ => (picks_time kind converted).symm)⟩
  intro items
  rw [applyRule,kind,if_neg (by decide),if_pos rfl,applyTime,found]
  exact if_neg positive

theorem size_effect (kind : rule.kind = ascii "size") (applied : applySize values items rule.params = .ok after) :
    HasEffect values now rule := by
  obtain ⟨maxBytes,found,rest⟩ := bind_ok_iff.mp applied
  obtain ⟨positive,_⟩ := guard_ok_iff.mp rest
  refine ⟨_,?_,fun items => (sizeFrom_scans maxBytes [] items).congr (fun _ _ => (picks_size kind found).symm)⟩
  intro items
  rw [applyRule,kind,if_neg (by decide),if_neg (by decide),if_pos rfl,applySize,found]
  exact if_neg positive

theorem gfs_effect (kind : rule.kind = ascii "gfs") (applied : applyGFS values items rule.params = .ok after) :
    HasEffect values now rule := by
  unfold applyGFS at applied
  simp only [bind_ok_iff] at applied
  obtain ⟨daily,first,weekly,second,monthly,third,yearly,fourth,_⟩ := applied
  have limits : ∀ period limit, optionalIntParam values rule.params (ascii period.name) = .ok limit ↔
      (period,limit) ∈ [(Period.daily,daily),(.weekly,weekly),(.monthly,monthly),(.yearly,yearly)] := by
    intro period limit
    cases period with
    | daily => rw [show ascii Period.daily.name = ascii "daily" from rfl,first]; simp [eq_comm]
    | weekly => rw [show ascii Period.weekly.name = ascii "weekly" from rfl,second]; simp [eq_comm]
    | monthly => rw [show ascii Period.monthly.name = ascii "monthly" from rfl,third]; simp [eq_comm]
    | yearly => rw [show ascii Period.yearly.name = ascii "yearly" from rfl,fourth]; simp [eq_comm]
  have started : ∀ period limit, Slot.Follows [] ⟨period,limit,[]⟩ :=
    fun period limit => ⟨[],rfl,List.nodup_nil,nofun,fun _ => nofun⟩
  refine ⟨gfsFrom [⟨.daily,daily,[]⟩,⟨.weekly,weekly,[]⟩,⟨.monthly,monthly,[]⟩,⟨.yearly,yearly,[]⟩],?_,?_⟩
  · intro items
    rw [applyRule,kind,if_neg (by decide),if_neg (by decide),if_neg (by decide),if_pos rfl,applyGFS,first,second,
      third,fourth]
    rfl
  · intro items
    refine (gfsFrom_scans (by simp [started]) items).congr ?_
    intro newer backup
    rw [picks_gfs kind]
    constructor
    · rintro ⟨⟨period,limit⟩,member,fresh⟩
      exact ⟨period,limit,(limits period limit).mpr member,fresh⟩
    · rintro ⟨period,limit,found,fresh⟩
      exact ⟨(period,limit),(limits period limit).mp found,fresh⟩

theorem applyRule_effect (applied : applyRule values now items rule = .ok after) : HasEffect values now rule := by
  unfold applyRule at applied
  split at applied
  · rename_i kind
    exact count_effect kind applied
  · split at applied
    · rename_i kind
      exact time_effect kind applied
    · split at applied
      · rename_i kind
        exact size_effect kind applied
      · split at applied
        · rename_i kind
          exact gfs_effect kind applied
        · cases applied

theorem applyRules_scans (applied : applyRules values now items rules = .ok after) :
    Scans (Picked values now (convertedDuration values) rules) [] items after := by
  induction rules generalizing items with
  | nil =>
    obtain rfl := Except.ok.inj applied
    exact (Scans.refl [] items).congr (by simp [Picked])
  | cons _ _ ih =>
    obtain ⟨_,one,later⟩ := bind_ok_iff.mp applied
    obtain ⟨_,works,scans⟩ := applyRule_effect one
    rw [works items] at one
    obtain rfl := Except.ok.inj one
    exact ((scans items).trans (ih later)).congr (by simp [Picked])

theorem applyRules_accepts : (∃ after, applyRules values now items rules = .ok after) ↔
    ∀ rule ∈ rules, ∃ after, applyRule values now [] rule = .ok after := by
  induction rules generalizing items with
  | nil => exact iff_of_true ⟨items,rfl⟩ nofun
  | cons _ _ ih =>
    rw [List.forall_mem_cons]
    constructor
    · rintro ⟨after,applied⟩
      obtain ⟨_,one,later⟩ := bind_ok_iff.mp applied
      obtain ⟨effect,works,_⟩ := applyRule_effect one
      exact ⟨⟨_,works []⟩,ih.mp ⟨after,later⟩⟩
    · rintro ⟨⟨_,one⟩,others⟩
      obtain ⟨effect,works,_⟩ := applyRule_effect one
      obtain ⟨after,later⟩ := (@ih (effect items)).mpr others
      exact ⟨after,bind_ok_iff.mpr ⟨_,works items,later⟩⟩

end

end Kronos.RetentionRules
