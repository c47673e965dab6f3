import Kronos.BTree

namespace Kronos.BTreeEntries
open ByteRange SortedRun BTreeNode BTree

variable {id : Nat} {σ : Type}

theorem insertEntry_between (left : ∀ e ∈ below, e.key < entry.key) (right : ∀ e ∈ above, entry.key < e.key) :
    insertEntry (below ++ above) entry = below ++ entry :: above := by
  have index : BTree.lowerBound (below ++ above) entry.key = below.length :=
    lowerBound_cut Entry.key below above entry.key left fun e member => le_of_lt (right e member)
  have absent : ((below ++ above)[below.length]?).any (fun found => decide (found.key = entry.key)) = false := by
    rw [List.getElem?_append_right (Nat.le_refl _),Nat.sub_self]
    cases above with
    | nil => rfl
    | cons first => simpa using ne_of_gt (right first (by simp))
  simp only [insertEntry,index,absent]
  simp

theorem insertEntry_replace (same : found.key = entry.key) (left : ∀ e ∈ below, e.key < entry.key)
    (right : ∀ e ∈ above, entry.key < e.key) :
    insertEntry (below ++ found :: above) entry = below ++ entry :: above := by
  have index : BTree.lowerBound (below ++ found :: above) entry.key = below.length := by
    apply lowerBound_cut Entry.key below (found :: above) entry.key left
    intro e member
    rcases List.mem_cons.mp member with rfl | later
    · exact le_of_eq same.symm
    · exact le_of_lt (right e later)
  have present : ((below ++ found :: above)[below.length]?).any (fun old => decide (old.key = entry.key)) = true := by
    simp [same]
  simp only [insertEntry,index,present]
  simp

-- An ascending run is cut by a key into what is below it, an entry with that
-- key if there is one, and what is above it.
theorem ascending_place (sorted : Ascending Entry.key run) (key : Bytes) :
    ∃ below above, (∀ e ∈ below, e.key < key) ∧ (∀ e ∈ above, key < e.key) ∧
      (run = below ++ above ∨ ∃ found, found.key = key ∧ run = below ++ found :: above) := by
  obtain ⟨below,others,rfl,left,right⟩ := ascending_cut Entry.key sorted key
  cases others with
  | nil => exact ⟨below,[],left,by simp,.inl rfl⟩
  | cons first above =>
    have later : ∀ e ∈ above, first.key < e.key :=
      (List.pairwise_cons.mp (List.pairwise_append.mp sorted).2.1).1
    rcases eq_or_lt_of_le (right first (by simp)) with same | less
    · exact ⟨below,above,left,fun e member => same ▸ later e member,.inr ⟨first,same.symm,rfl⟩⟩
    · refine ⟨below,first :: above,left,?_,.inl rfl⟩
      intro e member
      rcases List.mem_cons.mp member with rfl | old
      · exact less
      · exact lt_trans less (later e old)

theorem insertEntry_exact (sorted : Ascending Entry.key run) (entry : Entry) :
    insertEntry run entry = SortedRun.put Entry.key run entry := by
  obtain ⟨below,above,left,right,rfl | ⟨found,same,rfl⟩⟩ := ascending_place sorted entry.key
  · have placed := @put_between _ _ _ Entry.key below [] above entry left right
    rw [insertEntry_between left right]
    simpa [SortedRun.put] using placed.symm
  · have placed := @put_between _ _ _ Entry.key below [found] above entry left right
    rw [insertEntry_replace same left right]
    simpa [SortedRun.put,same] using placed.symm

theorem search_place (left : ∀ e ∈ below, e.key < found.key) (right : ∀ e ∈ above, found.key < e.key) :
    search (below ++ found :: above) found.key = some below.length := by
  have index : BTree.lowerBound (below ++ found :: above) found.key = below.length := by
    apply lowerBound_cut Entry.key below (found :: above) found.key left
    intro e member
    rcases List.mem_cons.mp member with rfl | later
    · exact le_refl _
    · exact le_of_lt (right e later)
  simp [search,index]

theorem search_absent (left : ∀ e ∈ below, e.key < key) (right : ∀ e ∈ above, key < e.key) :
    search (below ++ above) key = none := by
  have index : BTree.lowerBound (below ++ above) key = below.length :=
    lowerBound_cut Entry.key below above key left fun e member => le_of_lt (right e member)
  simp only [search,index]
  rw [List.getElem?_append_right (Nat.le_refl _),Nat.sub_self]
  cases above with
  | nil => rfl
  | cons first => simpa using ne_of_gt (right first (by simp))

theorem search_exact {run : List Entry} (sorted : Ascending Entry.key run) (key : Bytes) :
    (search run key = none ∧ find Entry.key run key = none) ∨
      ∃ index entry, search run key = some index ∧ run[index]? = some entry ∧
        find Entry.key run key = some entry := by
  obtain ⟨below,_,left,right,same | ⟨found,rfl,same⟩⟩ := ascending_place sorted key
  · refine .inl ⟨same ▸ search_absent left right,?_⟩
    apply List.find?_eq_none.mpr
    intro e member
    rcases List.mem_append.mp (same ▸ member) with low | high
    · simpa using ne_of_lt (left e low)
    · simpa using ne_of_gt (right e high)
  · refine .inr ⟨below.length,found,same ▸ search_place left right,by simp [same],?_⟩
    exact (find_exact Entry.key sorted found.key found).mpr ⟨by simp [same],rfl⟩

theorem deleteEntry_exact (sorted : Ascending Entry.key run) (key : Bytes) :
    (deleteEntry run key = none ∧ ∀ e ∈ run, e.key ≠ key) ∨
      (deleteEntry run key = some (SortedRun.drop Entry.key run key) ∧ ∃ e ∈ run, e.key = key) := by
  obtain ⟨below,above,left,right,rfl | ⟨found,rfl,rfl⟩⟩ := ascending_place sorted key
  · refine .inl ⟨by simp [deleteEntry,search_absent left right],?_⟩
    intro e member
    rcases List.mem_append.mp member with low | high
    · exact ne_of_lt (left e low)
    · exact ne_of_gt (right e high)
  · refine .inr ⟨?_,found,by simp,rfl⟩
    have cut := @drop_between _ _ _ Entry.key below [found] above found.key
      (fun e member => ne_of_lt (left e member)) (fun e member => ne_of_gt (right e member))
    have erased : (below ++ found :: above).eraseIdx below.length = below ++ above := by
      rw [List.eraseIdx_append_of_length_le (Nat.le_refl _)]
      simp
    simp only [deleteEntry,search_place left right,Option.map_some,erased]
    simpa [SortedRun.drop] using cut.symm

theorem splitEntries_parts (entries : List Entry) (nonempty : entries ≠ []) :
    (splitEntries entries).1 ++ (splitEntries entries).2 = entries ∧ (splitEntries entries).1 ≠ [] := by
  refine ⟨List.take_append_drop _ _,?_⟩
  intro empty
  rcases List.take_eq_nil_iff.mp empty with zero | none
  · split at zero
    · cases zero
    · omega
  · exact nonempty none

theorem entryAt_exact {index : Nat} (held : entries[index]? = some entry) :
    (entryAt entries (index : Int) : EStateM Fault σ Entry) = pure entry := by
  change entryAt entries (Int.ofNat index) = _
  simp only [entryAt,held]

theorem entryAt_place (before : List Entry) (entry : Entry) (after : List Entry) :
    (entryAt (before ++ entry :: after) (before.length : Int) : EStateM Fault σ Entry) = pure entry :=
  entryAt_exact (by simp)

-- The three ways the search of a branch ends: past the last entry, at an entry
-- above the key with one before it, or at the entry itself.
theorem child_last {before : List Entry} {entry : Entry} {key : Bytes} (left : ∀ e ∈ before ++ [entry], e.key < key) :
    childIndexFor (before ++ [entry]) key = before.length ∧
      ∀ next, (childFor ⟨id,.branch,next,before ++ [entry]⟩ key : EStateM Fault σ Nat) = pure entry.child := by
  have index : BTree.lowerBound (before ++ [entry]) key = (before ++ [entry]).length := by
    simpa [BTree.lowerBound] using lowerBound_cut Entry.key (before ++ [entry]) [] key left (by simp)
  have under : ¬ key < entry.key := not_lt_of_gt (left entry (by simp))
  constructor
  · simp [childIndexFor,index]
  · intro next
    have held := @entryAt_place σ before entry []
    simp only [childFor,index]
    simp [under,held]

theorem child_before {before after : List Entry} {entry following : Entry} {key : Bytes}
    (left : ∀ e ∈ before ++ [entry], e.key < key) (right : ∀ e ∈ following :: after, key < e.key) :
    childIndexFor (before ++ entry :: following :: after) key = before.length ∧
      ∀ next, (childFor ⟨id,.branch,next,before ++ entry :: following :: after⟩ key : EStateM Fault σ Nat) =
        pure entry.child := by
  have index : BTree.lowerBound (before ++ entry :: following :: after) key = before.length + 1 := by
    simpa [BTree.lowerBound] using lowerBound_cut Entry.key (before ++ [entry]) (following :: after) key left
      (fun e member => le_of_lt (right e member))
  have past : key < following.key := right following (by simp)
  have here : (before ++ entry :: following :: after)[before.length + 1]? = some following := by
    simp
  constructor
  · simp [childIndexFor,index,past]
  · intro next
    have found : (entryAt (before ++ entry :: following :: after) ((before.length : Int) + 1) :
        EStateM Fault σ Entry) = pure following := entryAt_exact here
    have previous := @entryAt_place σ before entry (following :: after)
    simp only [childFor,index]
    simp [found,past,previous]

theorem child_here {before after : List Entry} {entry : Entry} {key : Bytes} (left : ∀ e ∈ before, e.key < key)
    (right : ∀ e ∈ entry :: after, key ≤ e.key) (reached : before = [] ∨ entry.key ≤ key) :
    childIndexFor (before ++ entry :: after) key = before.length ∧
      ∀ next, (childFor ⟨id,.branch,next,before ++ entry :: after⟩ key : EStateM Fault σ Nat) = pure entry.child := by
  have index : BTree.lowerBound (before ++ entry :: after) key = before.length :=
    lowerBound_cut Entry.key before (entry :: after) key left right
  have stay : ¬ (key < entry.key ∧ before.length > 0) := by
    rintro ⟨past,some⟩
    rcases reached with empty | under
    · simp [empty] at some
    · exact absurd past (not_lt_of_ge under)
  have held := @entryAt_place σ before entry after
  constructor
  · simp [childIndexFor,index,stay]
  · intro next
    simp only [childFor,index]
    simp [held,stay]

-- The child a branch follows for a key: the last one whose separator is not
-- above it, or the first child. childFor and childIndexFor choose the same.
theorem child_place {entries : List Entry} (sorted : Ascending Entry.key entries) (nonempty : entries ≠ []) (key : Bytes) :
    ∃ before entry after, entries = before ++ entry :: after ∧ childIndexFor entries key = before.length ∧
      (∀ next, (childFor ⟨id,.branch,next,entries⟩ key : EStateM Fault σ Nat) = pure entry.child) ∧
      (before = [] ∨ entry.key ≤ key) ∧ ∀ e ∈ after, key < e.key := by
  obtain ⟨below,above,left,right,rfl | ⟨found,rfl,rfl⟩⟩ := ascending_place sorted key
  · rcases List.eq_nil_or_concat below with rfl | ⟨before,entry,rfl⟩
    · cases above with
      | nil => exact absurd rfl nonempty
      | cons first after =>
        obtain ⟨index,child⟩ := @child_here id σ [] after first key (by simp)
          (fun e member => le_of_lt (right e member)) (.inl rfl)
        exact ⟨[],first,after,rfl,index,child,.inl rfl,fun e member => right e (List.mem_cons_of_mem _ member)⟩
    · rw [List.concat_eq_append] at left ⊢
      have under : entry.key ≤ key := le_of_lt (left entry (by simp))
      cases above with
      | nil =>
        obtain ⟨index,child⟩ := @child_last id σ before entry key left
        simp only [List.append_nil]
        exact ⟨before,entry,[],rfl,index,child,.inr under,by simp⟩
      | cons following after =>
        obtain ⟨index,child⟩ := @child_before id σ before after entry following key left right
        simp only [List.append_assoc,List.cons_append,List.nil_append]
        exact ⟨before,entry,following :: after,rfl,index,child,.inr under,right⟩
  · have later : ∀ e ∈ found :: above, found.key ≤ e.key := by
      intro e member
      rcases List.mem_cons.mp member with rfl | old
      · exact le_refl _
      · exact le_of_lt (right e old)
    obtain ⟨index,child⟩ := @child_here id σ below above found found.key left later (.inr (le_refl _))
    exact ⟨below,found,above,rfl,index,child,.inr (le_refl _),right⟩

theorem child_index (sorted : Ascending Entry.key (before ++ entry :: after))
    (reached : before = [] ∨ entry.key ≤ key) (later : ∀ e ∈ after, key < e.key) :
    childIndexFor (before ++ entry :: after) key = before.length := by
  obtain ⟨_,chosen,_,shape,index,_,reachedToo,laterToo⟩ := @child_place 0 Unit _ sorted (by simp) key
  rw [index]
  rcases List.append_eq_append_iff.mp shape with ⟨middle,rfl,rest⟩ | ⟨middle,rfl,rest⟩
  · cases middle with
    | nil => simp
    | cons =>
      obtain ⟨rfl,rfl⟩ := List.cons.inj rest
      have under := reachedToo.resolve_left (by simp)
      exact absurd under (not_le_of_gt (later chosen (by simp)))
  · cases middle with
    | nil => simp
    | cons =>
      obtain ⟨rfl,rfl⟩ := List.cons.inj rest
      have under := reached.resolve_left (by simp)
      exact absurd under (not_le_of_gt (laterToo entry (by simp)))

end Kronos.BTreeEntries
