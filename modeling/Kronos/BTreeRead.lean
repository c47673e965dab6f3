import Kronos.BTreePut

namespace Kronos.BTreeRead
open ByteRange SortedRun BTreeNode BTree BTreeEntries BTreeShape BTreePut NodeHeap Effect

variable {id height depth : Nat} {node : Node} {pages : Multiset Nat} {leaves after : List Node} {h : Heap}
  {key start : Bytes} {stop : Option Bytes} {it : Iterator} {rest : List Entry}

theorem count_exact (h : Heap) : heapStore.pageCount h = .ok h.pageCount h := rfl

theorem middle_owned (d : Descent h.nodes height id key leaves pages) (owned : Owned h pages) :
    Owned h d.middlePages := by
  have parts := d.parts 0
  rw [add_zero] at parts
  exact owned.forget (le_of_le_of_eq (Multiset.le_add_right _ _) parts.symm)

theorem getAt_exact (sub : Subtree h.nodes height id leaves pages) (full : height = 0 ∨ Filled leaves)
    (sorted : Ascending Entry.key (contents leaves)) (owned : Owned h pages) (deep : height < depth) :
    getAt heapStore depth id key h = .ok ((find Entry.key (contents leaves) key).map Entry.value) h := by
  induction height generalizing id leaves pages depth with
  | zero =>
    obtain ⟨_,found,rfl,typ,valid,rfl,rfl⟩ := sub
    obtain ⟨depth,rfl⟩ : ∃ less, depth = less + 1 := ⟨depth - 1,by omega⟩
    refine (bind_ran (read_exact owned (by simp) found)).trans ?_
    simp only [typ]
    rcases search_exact valid.sorted key with ⟨none,absent⟩ | ⟨_,_,some,held,present⟩
    · simp only [none]
      simp [absent]
      rfl
    · simp only [some,entryAt_exact held]
      simp [present]
      rfl
  | succ height ih =>
    have filled : Filled leaves := full.resolve_left (Nat.succ_ne_zero height)
    obtain ⟨d⟩ := descend key sub filled sorted
    obtain ⟨depth,rfl⟩ : ∃ less, depth = less + 1 := ⟨depth - 1,by omega⟩
    have below := ih d.middleTree (.inr (d.filled filled)) (d.sorted sorted) (middle_owned d owned)
      (show height < depth by omega)
    obtain ⟨_,_,_,_,held⟩ := subtree_root sub
    refine (bind_ran (read_exact owned held d.found)).trans ?_
    simp only [d.typ,d.child,pure_bind]
    have between := @find_between _ _ _ Entry.key (contents d.lower) (contents d.middle) (contents d.upper) key
      (fun e member => ne_of_lt (d.below e member)) (fun e member => ne_of_gt (d.above e member))
    rw [← contents_append,← contents_append,← d.split] at between
    rw [below,between]

theorem get_exact (rooted : Rooted h root leaves) (keyed : key ≠ []) :
    BTree.get heapStore root key h = .ok ((find Entry.key (contents leaves) key).map Entry.value) h := by
  obtain ⟨⟨_,_,sub,full,owned⟩,sorted⟩ := rooted
  unfold BTree.get
  rw [if_neg (by simpa using keyed)]
  exact getAt_exact sub full sorted owned (Nat.lt_of_lt_of_le (subtree_height sub) owned.count)

theorem firstLeafAt_exact (sub : Subtree h.nodes height id leaves pages) (full : height = 0 ∨ Filled leaves)
    (sorted : Ascending Entry.key (contents leaves)) (owned : Owned h pages) (deep : height < depth) :
    ∃ before leaf after, leaves = before ++ leaf :: after ∧ firstLeafAt heapStore depth id key h = .ok leaf h ∧
      (∀ e ∈ contents before, e.key < key) ∧ ∀ e ∈ contents after, key < e.key := by
  induction height generalizing id leaves pages depth with
  | zero =>
    obtain ⟨node,found,rfl,typ,_,rfl,rfl⟩ := sub
    obtain ⟨depth,rfl⟩ : ∃ less, depth = less + 1 := ⟨depth - 1,by omega⟩
    refine ⟨[],node,[],rfl,?_,by simp,by simp⟩
    refine (bind_ran (read_exact owned (by simp) found)).trans ?_
    simp only [typ]
    rfl
  | succ height ih =>
    have filled : Filled leaves := full.resolve_left (Nat.succ_ne_zero height)
    obtain ⟨d⟩ := descend key sub filled sorted
    obtain ⟨depth,rfl⟩ : ∃ less, depth = less + 1 := ⟨depth - 1,by omega⟩
    obtain ⟨before,leaf,after,shape,ran,below,above⟩ := ih d.middleTree (.inr (d.filled filled)) (d.sorted sorted)
      (middle_owned d owned) (show height < depth by omega)
    obtain ⟨_,_,_,_,held⟩ := subtree_root sub
    refine ⟨d.lower ++ before,leaf,after ++ d.upper,d.split.trans (by rw [shape]; simp),?_,?_,?_⟩
    · refine (bind_ran (read_exact owned held d.found)).trans ?_
      simp only [d.typ,d.child,pure_bind]
      exact ran
    · simpa [or_imp,forall_and] using And.intro d.below below
    · simpa [or_imp,forall_and] using And.intro above d.above

theorem kids_leaves (each : ∀ id leaves part, part ≤ pages → Subtree h.nodes height id leaves part →
      ∀ leaf ∈ leaves, leaf.typ = .leaf ∧ h.nodes leaf.id = .ok leaf ∧ leaf.id ∈ part)
    (kids : Kids (Subtree h.nodes height) entries leaves pages) :
    ∀ leaf ∈ leaves, leaf.typ = .leaf ∧ h.nodes leaf.id = .ok leaf ∧ leaf.id ∈ pages := by
  induction entries generalizing leaves pages with
  | nil => obtain ⟨rfl,_⟩ := kids; simp
  | cons _ _ ih =>
    obtain ⟨_,p,_,q,sub,_,kids,rfl,rfl⟩ := kids
    intro leaf member
    rcases List.mem_append.mp member with first | later
    · obtain ⟨typ,found,held⟩ := each _ _ _ (Multiset.le_add_right p q) sub leaf first
      exact ⟨typ,found,by simp [held]⟩
    · obtain ⟨typ,found,held⟩ := ih (fun id leaves part fewer => each id leaves part
        (le_trans fewer (Multiset.le_add_left q p))) kids leaf later
      exact ⟨typ,found,by simp [held]⟩

theorem subtree_leaf (sub : Subtree h.nodes height id leaves pages) :
    ∀ leaf ∈ leaves, leaf.typ = .leaf ∧ h.nodes leaf.id = .ok leaf ∧ leaf.id ∈ pages := by
  induction height generalizing id leaves pages with
  | zero =>
    obtain ⟨_,found,rfl,typ,_,rfl,rfl⟩ := sub
    simpa using And.intro typ found
  | succ _ ih =>
    obtain ⟨_,_,_,_,_,_,_,kids,rfl⟩ := sub
    intro leaf member
    obtain ⟨typ,found,held⟩ := kids_leaves (fun _ _ _ _ sub => ih sub) kids leaf member
    exact ⟨typ,found,by simp [held]⟩

structure Ahead (h : Heap) (it : Iterator) (after : List Node) (rest : List Entry) : Prop where
  clean : it.err = none
  leaf : it.node.typ = .leaf
  linked : Linked (it.node :: after) 0
  readable : ∀ next ∈ after, next.typ = .leaf ∧ next.id ≠ 0 ∧ readNode next.id h = .ok next h
  filled : Filled after
  ahead : rest = it.node.entries.drop it.index ++ contents after

def Settled (it : Iterator) (rest : List Entry) : Prop := it.index < it.node.entries.length ∨ rest = []

theorem skipEmpty_stays (inside : it.index < it.node.entries.length) (fuel : Nat) :
    skipEmpty heapStore (fuel+1) it = pure it := by
  unfold skipEmpty
  rw [if_neg (fun more => Nat.not_le_of_lt inside more.2.2.1)]

theorem skipEmpty_exact (ahead : Ahead h it after rest) (fuel : Nat) :
    ∃ found later, skipEmpty heapStore (fuel+2) it h = .ok found h ∧ Ahead h found later rest ∧
      Settled found rest ∧ found.stop = it.stop := by
  obtain ⟨clean,leaf,linked,readable,filled,shape⟩ := ahead
  by_cases inside : it.index < it.node.entries.length
  · rw [skipEmpty_stays inside]
    exact ⟨it,after,rfl,⟨clean,leaf,linked,readable,filled,shape⟩,.inl inside,rfl⟩
  have spent : it.node.entries.drop it.index = [] := List.drop_eq_nil_of_le (Nat.le_of_not_lt inside)
  cases after with
  | nil =>
    have last : it.node.next = 0 := linked.1
    unfold skipEmpty
    rw [if_neg (fun more => more.2.2.2 last)]
    exact ⟨it,[],rfl,⟨clean,leaf,linked,readable,filled,shape⟩,.inr (by rw [shape,spent]; rfl),rfl⟩
  | cons next others =>
    obtain ⟨typ,nonzero,read⟩ := readable next (by simp)
    have link : it.node.next = next.id := linked.1
    have some : 0 < next.entries.length := List.length_pos_iff.mpr (filled next (by simp))
    unfold skipEmpty
    rw [if_pos ⟨clean,leaf,Nat.le_of_not_lt inside,by rw [link]; exact nonzero⟩]
    have attempted : attempt (heapStore.readNode it.node.next) h = .ok (.ok next) h := by
      change attempt (readNode it.node.next) h = _
      rw [link]
      simp only [attempt,read]
    refine ⟨{it with node := next,index := 0},others,(bind_ran attempted).trans ?_,
      ⟨clean,typ,linked.2,fun later member => readable later (by simp [member]),
        fun later member => filled later (by simp [member]),?_⟩,.inl some,rfl⟩
    · exact congrFun (@skipEmpty_stays {it with node := next,index := 0} some fuel) h
    · rw [shape,spent]
      simp

def short (stop : Option Bytes) (entry : Entry) : Bool :=
  match stop with
  | none => true
  | some stop => !decide (stop ≤ entry.key)

def range (start : Bytes) (stop : Option Bytes) (run : List Entry) : List Entry :=
  run.filter (fun entry => decide (start ≤ entry.key) && short stop entry)

def pair (entry : Entry) : Bytes × Bytes := (entry.key,entry.value)

theorem Ahead.current_none (ahead : Ahead h it after []) : it.current = none := by
  have empty := (List.append_eq_nil_iff.mp ahead.ahead.symm).1
  exact List.getElem?_eq_none (List.drop_eq_nil_iff.mp empty)

theorem Ahead.current (ahead : Ahead h it after (entry :: rest)) (settled : Settled it (entry :: rest)) :
    it.current = some entry ∧ it.node.entries.drop (it.index + 1) ++ contents after = rest := by
  have inside : it.index < it.node.entries.length := settled.resolve_right (by simp)
  have shape := ahead.ahead
  rw [List.drop_eq_getElem_cons inside,List.cons_append,List.cons.injEq] at shape
  exact ⟨(List.getElem?_eq_getElem inside).trans (congrArg some shape.1.symm),shape.2.symm⟩

theorem valid_exact (clean : it.err = none) (leaf : it.node.typ = .leaf) :
    it.valid = (it.current).any (short it.stop) := by
  cases found : it.current with
  | none => simp [Iterator.valid,clean,leaf,found]
  | some => cases bound : it.stop <;> simp [Iterator.valid,clean,leaf,found,bound,short]

theorem drive_exact (ahead : Ahead h it after rest) (settled : Settled it rest) (positive : 0 < h.pageCount)
    (turns : Nat) (enough : rest.length ≤ turns) :
    ∃ last, drive heapStore turns it h = .ok ((rest.takeWhile (short it.stop)).map pair,last) h ∧
      last.valid = false ∧ last.err = none := by
  induction rest generalizing it after turns with
  | nil =>
    have ended : it.valid = false := by rw [valid_exact ahead.clean ahead.leaf,ahead.current_none]; rfl
    refine ⟨it,?_,ended,ahead.clean⟩
    cases turns with
    | zero => rfl
    | succ => simp [drive,ended]; rfl
  | cons entry rest ih =>
    obtain ⟨turns,rfl⟩ : ∃ less, turns = less + 1 := ⟨turns - 1,by simp at enough; omega⟩
    obtain ⟨current,later⟩ := ahead.current settled
    have valid := valid_exact ahead.clean ahead.leaf
    rw [current] at valid
    cases wanted : short it.stop entry with
    | false =>
      have ended : it.valid = false := by rw [valid]; exact wanted
      refine ⟨it,?_,ended,ahead.clean⟩
      simp [drive,ended,wanted]
      rfl
    | true =>
      have going : it.valid = true := by rw [valid]; exact wanted
      obtain ⟨fuel,same⟩ : ∃ fuel, h.pageCount + 1 = fuel + 2 := ⟨h.pageCount - 1,by omega⟩
      have moved : Ahead h {it with index := it.index + 1} after rest :=
        ⟨ahead.clean,ahead.leaf,ahead.linked,ahead.readable,ahead.filled,later.symm⟩
      obtain ⟨found,_,ran,aheadFound,settledFound,stop⟩ := skipEmpty_exact moved fuel
      have stepped : next heapStore it h = .ok found h := by
        unfold next
        rw [if_pos going]
        refine (bind_ran (count_exact h)).trans ?_
        rw [same]
        exact ran
      obtain ⟨last,rest,ended,clean⟩ := ih aheadFound settledFound turns (by simp at enough; omega)
      refine ⟨last,?_,ended,clean⟩
      unfold drive
      simp only [going,current]
      refine (bind_ran stepped).trans ((bind_ran rest).trans ?_)
      have bound : found.stop = it.stop := stop
      simp [wanted,pair,bound]
      rfl

theorem takeWhile_short (sorted : Ascending Entry.key run) : run.takeWhile (short stop) = run.filter (short stop) := by
  induction run with
  | nil => rfl
  | cons entry rest ih =>
    obtain ⟨first,later⟩ := List.pairwise_cons.mp sorted
    cases wanted : short stop entry with
    | true => simp [wanted,ih later]
    | false =>
      have none : rest.filter (short stop) = [] := by
        apply List.filter_eq_nil_iff.mpr
        intro e member
        cases stop with
        | none => cases wanted
        | some =>
          simp only [short,Bool.not_eq_false',decide_eq_true_eq] at wanted
          simpa [short] using le_trans wanted (le_of_lt (first e member))
      simp [wanted,none]

theorem range_cut {low rest : List Entry} (left : ∀ e ∈ low, e.key < start) (right : ∀ e ∈ rest, start ≤ e.key) :
    range start stop (low ++ rest) = rest.filter (short stop) := by
  have none : low.filter (fun entry => decide (start ≤ entry.key) && short stop entry) = [] := by
    apply List.filter_eq_nil_iff.mpr
    intro e member
    simp [not_le_of_gt (left e member)]
  have all : rest.filter (fun entry => decide (start ≤ entry.key) && short stop entry) = rest.filter (short stop) := by
    apply List.filter_congr
    intro e member
    simp [right e member]
  rw [range,List.filter_append,none,all,List.nil_append]

theorem range_empty (empty : stop.any (fun stop => decide (stop ≤ start))) (run : List Entry) :
    range start stop run = [] := by
  apply List.filter_eq_nil_iff.mpr
  intro e _
  cases stop with
  | none => cases empty
  | some stop =>
    have bound : stop ≤ start := by simpa using empty
    simp only [short,Bool.and_eq_true,decide_eq_true_eq,Bool.not_eq_true',decide_eq_false_iff_not,not_and,not_not]
    exact fun above => le_trans bound above

theorem later_filled (sub : Subtree h.nodes height id (before ++ leaf :: after) pages)
    (full : height = 0 ∨ Filled (before ++ leaf :: after)) : Filled after := by
  rcases full with rfl | filled
  · obtain ⟨_,_,_,_,_,alone,_⟩ := sub
    have size := congrArg List.length alone
    simp only [List.length_append,List.length_cons,List.length_nil] at size
    have none : after = [] := List.length_eq_zero_iff.mp (by omega)
    simp [Filled,none]
  · exact fun next member => filled next (by simp [member])

-- The iterator a scan makes before it skips: everything from the start on is
-- ahead of it along the sibling chain.
theorem scan_ahead (sub : Subtree h.nodes height id leaves pages) (full : height = 0 ∨ Filled leaves)
    (sorted : Ascending Entry.key (contents leaves)) (owned : Owned h pages) (linked : Linked leaves 0) (start : Bytes)
    (stop : Option Bytes) : ∃ leaf after rest, firstLeafAt heapStore h.pageCount id start h = .ok leaf h ∧
      Ahead h ⟨leaf,BTree.lowerBound leaf.entries start,stop,none⟩ after rest ∧ Ascending Entry.key rest ∧
      range start stop (contents leaves) = rest.filter (short stop) := by
  have deep : height < h.pageCount := Nat.lt_of_lt_of_le (subtree_height sub) owned.count
  obtain ⟨before,leaf,after,rfl,ran,below,above⟩ := @firstLeafAt_exact _ _ _ _ _ _ start sub full sorted owned deep
  have leafFacts := subtree_leaf sub
  rw [contents_append,contents_cons] at sorted ⊢
  obtain ⟨_,tail,_⟩ := ascending_append.mp sorted
  obtain ⟨low,high,shape,left,right⟩ := ascending_cut Entry.key (ascending_append.mp tail).1 start
  have index : BTree.lowerBound leaf.entries start = low.length := by
    rw [shape]
    exact lowerBound_cut Entry.key low high start left right
  refine ⟨leaf,after,high ++ contents after,ran,
    ⟨rfl,(leafFacts leaf (by simp)).1,(linked_append.mp linked).2,?_,later_filled sub full,?_⟩,?_,?_⟩
  · intro next member
    obtain ⟨typ,found,held⟩ := leafFacts next (by simp [member])
    exact ⟨typ,(owned.held held).1,read_exact owned held found⟩
  · change high ++ contents after = leaf.entries.drop (BTree.lowerBound leaf.entries start) ++ contents after
    rw [index,shape]
    simp
  · rw [shape,List.append_assoc] at tail
    exact (ascending_append.mp tail).2.1
  · have cut := @range_cut start stop (contents before ++ low) (high ++ contents after)
      (by simpa [or_imp,forall_and] using And.intro below left)
      (by simpa [or_imp,forall_and] using And.intro right fun e member => le_of_lt (above e member))
    rw [shape]
    simpa using cut

theorem scan_exact (rooted : Rooted h root leaves) (linked : Linked leaves 0) (start : Bytes) (stop : Option Bytes) :
    ∃ first, scan heapStore root start stop h = .ok first h ∧
      ∃ turns, ∀ count, turns ≤ count → ∃ last, drive heapStore count first h =
        .ok ((range start stop (contents leaves)).map pair,last) h ∧ last.valid = false ∧ last.err = none := by
  obtain ⟨⟨_,_,sub,full,owned⟩,sorted⟩ := rooted
  unfold scan
  by_cases empty : stop.any (fun stop => decide (stop ≤ start))
  · rw [if_pos empty,range_empty empty]
    refine ⟨Iterator.zero,rfl,0,fun count _ => ⟨Iterator.zero,?_,rfl,rfl⟩⟩
    cases count with
    | zero => rfl
    | succ => rfl
  · rw [if_neg empty]
    obtain ⟨_,_,rest,ran,ahead,restSorted,wanted⟩ := scan_ahead sub full sorted owned linked start stop
    have positive := owned.positive
    obtain ⟨fuel,same⟩ : ∃ fuel, h.pageCount + 1 = fuel + 2 := ⟨h.pageCount - 1,by omega⟩
    obtain ⟨first,_,skipped,aheadFirst,settled,bound⟩ := skipEmpty_exact ahead fuel
    refine ⟨first,?_,rest.length,fun count enough => ?_⟩
    · refine (bind_ran (count_exact h)).trans ((bind_ran ran).trans ?_)
      rw [same]
      exact skipped
    · obtain ⟨last,driven,ended,clean⟩ := drive_exact aheadFirst settled positive count enough
      refine ⟨last,?_,ended,clean⟩
      rw [driven,wanted,bound,takeWhile_short restSorted]

end Kronos.BTreeRead
