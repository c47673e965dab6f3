import Kronos.BTreePut

namespace Kronos.BTreeDelete
open ByteRange SortedRun BTreeNode BTree BTreeEntries BTreeShape BTreePut NodeHeap Effect

variable {id height depth lost size : Nat} {node child : Node} {pages rest inner : Multiset Nat} {leaves old new : List Node}
  {h t : Heap} {key : Bytes} {isRoot : Bool}

def Single (key : Bytes) (leaf : Node) : Prop := ∃ entry, leaf.entries = [entry] ∧ entry.key = key

-- What a delete does to the leaves: the chain around them stays whole, or the
-- leaf that held only this key is cut out and nothing is told to its neighbour.
structure Erased (key : Bytes) (old new : List Node) : Prop where
  entries : contents new = SortedRun.drop Entry.key (contents old) key
  change : Relinked old new ∨ ∃ before leaf after, old = before ++ leaf :: after ∧ new = before ++ after ∧
    Single key leaf

theorem Erased.within (erased : Erased key old new) (below : ∀ e ∈ contents lower, e.key < key)
    (above : ∀ e ∈ contents upper, key < e.key) : Erased key (lower ++ old ++ upper) (lower ++ new ++ upper) where
  entries := by
    simp only [contents_append,erased.entries]
    exact (drop_between Entry.key (fun e member => ne_of_lt (below e member))
      (fun e member => ne_of_gt (above e member))).symm
  change := by
    rcases erased.change with relinked | ⟨before,leaf,after,rfl,rfl,single⟩
    · exact .inl (relinked.within lower upper)
    · exact .inr ⟨lower ++ before,leaf,after ++ upper,by simp,by simp,single⟩

theorem Erased.sorted (erased : Erased key old new) (sorted : Ascending Entry.key (contents old)) :
    Ascending Entry.key (contents new) := erased.entries ▸ drop_ascending Entry.key sorted key

theorem erased_absent (absent : ∀ e ∈ contents leaves, e.key ≠ key) : Erased key leaves leaves where
  entries := (List.filter_eq_self.mpr fun e member => by simpa using absent e member).symm
  change := .inl (Relinked.refl leaves)

theorem erased_single (single : Single key leaf) : Erased key [leaf] [] where
  entries := by
    obtain ⟨_,shape,same⟩ := single
    simp [shape,SortedRun.drop,same]
  change := .inr ⟨[],leaf,[],rfl,rfl,single⟩

theorem drop_single (sorted : Ascending Entry.key run) (held : ∃ e ∈ run, e.key = key)
    (empty : SortedRun.drop Entry.key run key = []) : ∃ entry, run = [entry] ∧ entry.key = key := by
  have all : ∀ e ∈ run, e.key = key := by
    intro e member
    by_contra other
    have kept : e ∈ SortedRun.drop Entry.key run key := (mem_drop Entry.key).mpr ⟨member,other⟩
    simp [empty] at kept
  match run,held with
  | [],⟨e,member,_⟩ => cases member
  | [entry],_ => exact ⟨entry,rfl,all entry (by simp)⟩
  | first :: second :: _,_ =>
    have less : first.key < second.key := (List.pairwise_cons.mp sorted).1 second (by simp)
    rw [all first (by simp),all second (by simp)] at less
    exact absurd less (lt_irrefl key)

inductive Shrunk (lost size : Nat) (h t : Heap) (height id : Nat) (key : Bytes) (leaves : List Node)
    (rest : Multiset Nat) : Prop where
  | kept {node : Node} {new : List Node} {pages : Multiset Nat} : Subtree t.nodes height id new pages →
      t.nodes id = .ok node → node.entries.length = size → Erased key leaves new → Filled new →
      Counted lost t (pages + rest) → Keeps h t rest → Shrunk lost size h t height id key leaves rest
  | gone {node leaf : Node} : t.nodes id = .ok node → node.id = id → node.typ = .branch → WellFormed node →
      node.entries = [] → size = 0 → leaves = [leaf] → Single key leaf → Counted lost t (id ::ₘ rest) → Keeps h t rest →
      Shrunk lost size h t height id key leaves rest

-- A child in hand that lost its key, before the parent is brought up to date.
inductive Pending (lost : Nat) (h t : Heap) (height : Nat) (child : Node) (key : Bytes) (leaves : List Node)
    (rest : Multiset Nat) : Prop where
  | kept {new : List Node} {pages : Multiset Nat} : child.entries ≠ [] →
      Subtree (t.set child.id (.ok child)).nodes height child.id new pages → Erased key leaves new → Filled new → Counted lost t (pages + rest) → Keeps h t rest →
      Pending lost h t height child key leaves rest
  | gone {leaf : Node} : child.entries = [] → leaves = [leaf] → Single key leaf → Counted lost t (child.id ::ₘ rest) → Keeps h t rest →
      Pending lost h t height child key leaves rest

def Shared (node : Node) (key : Bytes) (leaves : List Node) : Prop :=
  ∃ e ∈ contents leaves, e.key ≠ key ∧ childIndexFor node.entries e.key = childIndexFor node.entries key

inductive Cut (node : Node) (key : Bytes) (leaves : List Node) : Nat → Prop where
  | none : Shared node key leaves → Cut node key leaves 0 | one : ¬ Shared node key leaves → Cut node key leaves 1

section
variable (d : Descent h.nodes height id key leaves pages)

theorem Descent.shared (filled : Filled leaves) (sorted : Ascending Entry.key (contents leaves)) :
    Shared d.node key leaves ↔ ∃ e ∈ contents d.middle, e.key ≠ key := by
  have order := sorted
  have split := d.split
  rw [split,contents_append,contents_append] at order
  obtain ⟨front,upperSorted,across⟩ := ascending_append.mp order
  obtain ⟨_,middleSorted,under⟩ := ascending_append.mp front
  have upperFilled := (filled_append.mp (split ▸ filled)).2
  have entries : Ascending Entry.key (d.before ++ d.entry :: d.after) := d.shape ▸ d.valid.sorted
  obtain ⟨least,inside,first⟩ := firstKey_mem (filled_contents (d.filled filled) (subtree_leaves d.middleTree))
  constructor
  · rintro ⟨e,member,other,same⟩
    obtain ⟨_,entry,_,shape,index,_,reached,later⟩ :=
      @child_place 0 Unit _ d.valid.sorted (by rw [d.shape]; simp) e.key
    rw [index,d.index] at same
    have parts := List.append_inj (shape.symm.trans d.shape) (Int.ofNat.inj same)
    obtain ⟨rfl,rfl⟩ := List.cons.inj parts.2
    rw [parts.1] at reached
    rw [split,contents_append,contents_append] at member
    rcases List.mem_append.mp member with low | high
    · rcases List.mem_append.mp low with lower | middle
      · have less : e.key < d.entry.key := by
          rw [d.separator,← first]
          exact under e lower least inside
        rcases reached with none | above
        · have empty := d.lowerKids
          rw [none] at empty
          rw [empty.1] at lower
          cases lower
        · exact absurd less (not_lt_of_ge above)
      · exact ⟨e,middle,other⟩
    · exact absurd (kids_above d.upperKids upperSorted later e high) (lt_irrefl _)
  · rintro ⟨e,member,other⟩
    refine ⟨e,by rw [split]; simp [member],other,?_⟩
    rw [d.index,d.shape]
    refine child_index entries (.inr (d.separator ▸ firstKey_le middleSorted e member)) fun a later => ?_
    obtain ⟨next,held,same⟩ := kids_separators d.upperKids upperFilled a later
    exact same ▸ across e (List.mem_append_right _ member) next held

theorem release_meets (owned : Counted lost h (id ::ₘ kept)) :
    Meets (releaseChild heapStore id isRoot) h (fun _ t => Counted (lost + isRoot.toNat) t kept ∧ Keeps h t kept)
      Ordinary := by
  cases isRoot with
  | true => exact meets_pure ⟨owned.lose,Keeps.refl _ _⟩
  | false =>
    obtain ⟨_,ran,ownedAfter,kept⟩ := free_counted owned
    change Meets (freePage id) h _ _
    simp only [Meets,ran]
    exact ⟨ownedAfter,kept⟩

theorem parent_wellFormed (kids : Kids (Subtree t.nodes height) updated.entries leaves inner) (filled : Filled leaves)
    (sorted : Ascending Entry.key (contents leaves)) (typ : updated.typ = .branch) (next : updated.next < 2 ^ 64)
    (owned : Counted lost t (id ::ₘ inner + rest)) : WellFormed updated := by
  have inside : ∀ x ∈ inner, x ≠ 0 ∧ x < 2 ^ 64 := by
    intro x member
    have held : x ∈ id ::ₘ inner + rest := by simp [member]
    exact ⟨(owned.held held).1,owned.small_id held⟩
  exact kids_wellFormed kids filled sorted inside next typ rfl

theorem storeParent_meets (named : updated.id = id)
    (kids : Kids (Subtree t.nodes height) updated.entries leaves inner) (filled : Filled leaves)
    (sorted : Ascending Entry.key (contents leaves)) (typ : updated.typ = .branch) (next : updated.next < 2 ^ 64)
    (owned : Counted lost t (id ::ₘ inner + rest)) :
    Meets (writeNode updated) t (fun _ last => last.nodes id = .ok updated ∧ WellFormed updated ∧
      Kids (Subtree last.nodes height) updated.entries leaves inner ∧
      Counted lost last (id ::ₘ inner + rest) ∧ Keeps t last rest) Ordinary := by
  have valid := parent_wellFormed kids filled sorted typ next owned
  subst named
  rw [Multiset.cons_add] at owned ⊢
  refine meets_mono (write_meets owned.toOwned (by simp) valid) ?_
  rintro _ _ ⟨rfl,_⟩
  have kept := keeps_set t (.ok updated) owned.apart
  exact ⟨set_same _ _ _,valid,keeps_kids (kept.mono fun _ member => by simp [member]) kids,owned.set _,
    kept.mono fun _ member => by simp [member]⟩

theorem erase_place (before : List Entry) (entry : Entry) (after : List Entry) :
    (before ++ entry :: after).eraseIdx before.length = before ++ after := by
  rw [List.eraseIdx_append_of_length_le (Nat.le_refl _)]
  simp

-- A branch after a delete below it, with the children it lost. Only the root
-- loses their pages with them.
def Trimmed (lost : Nat) (isRoot : Bool) (node : Node) (h t : Heap) (height id : Nat) (key : Bytes)
    (leaves : List Node) (rest : Multiset Nat) : Prop :=
  ∃ cut size, Cut node key leaves cut ∧ size + cut = node.entries.length ∧
    Shrunk (lost + isRoot.toNat * cut) size h t height id key leaves rest

theorem Descent.beside (kept : Keeps h t (id ::ₘ (d.lowerPages + d.upperPages) + rest)) :
    Kids (Subtree t.nodes height) d.before d.lower d.lowerPages ∧ Kids (Subtree t.nodes height) d.after d.upper d.upperPages :=
  ⟨keeps_kids (kept.mono fun _ member => by simp [member]) d.lowerKids,
    keeps_kids (kept.mono fun _ member => by simp [member]) d.upperKids⟩

theorem Descent.erased_shape :
    d.node.entries.eraseIdx (childIndexFor d.node.entries key).toNat = d.before ++ d.after := by
  rw [d.index,d.shape]
  exact erase_place d.before d.entry d.after

theorem Descent.renamed_shape (least : Bytes) :
    d.node.entries.modify (childIndexFor d.node.entries key).toNat (fun entry => {entry with key := least}) =
      d.before ++ {d.entry with key := least} :: d.after := by
  rw [d.index,d.shape]
  exact modify_place d.before d.entry d.after _

theorem gone_parts (filled : Filled leaves) (alone : d.middle = [leaf]) (single : Single key leaf)
    (kept : Keeps h t (id ::ₘ (d.lowerPages + d.upperPages) + rest)) :
    Kids (Subtree t.nodes height) (d.node.entries.eraseIdx (childIndexFor d.node.entries key).toNat)
      (d.lower ++ d.upper) (d.lowerPages + d.upperPages) ∧ Erased key leaves (d.lower ++ d.upper) ∧
      Filled (d.lower ++ d.upper) := by
  obtain ⟨lower,upper⟩ := Descent.beside d kept
  refine ⟨?_,?_,?_⟩
  · rw [Descent.erased_shape d]
    exact kids_append.mpr ⟨_,_,_,_,lower,upper,rfl,rfl⟩
  · have cut := (erased_single single).within d.below d.above
    rw [← alone,← d.split] at cut
    simpa using cut
  · obtain ⟨first,last⟩ := filled_append.mp (d.split ▸ filled)
    exact filled_append.mpr ⟨(filled_append.mp first).1,last⟩

theorem kept_parts (filled : Filled leaves) (named : child.id = d.entry.child) (found : t.nodes child.id = .ok child)
    (sub : Subtree t.nodes height child.id new inner) (erased : Erased key d.middle new) (full : Filled new)
    (kept : Keeps h t (id ::ₘ (d.lowerPages + d.upperPages) + rest)) :
    Kids (Subtree t.nodes height) (d.node.entries.modify (childIndexFor d.node.entries key).toNat
        (fun entry => {entry with key := firstKey child.entries}))
      (d.lower ++ new ++ d.upper) (d.lowerPages + (inner + d.upperPages)) ∧ Erased key leaves (d.lower ++ new ++ d.upper) ∧
      Filled (d.lower ++ new ++ d.upper) := by
  obtain ⟨lower,upper⟩ := Descent.beside d kept
  refine ⟨?_,?_,?_⟩
  · rw [Descent.renamed_shape d,List.append_assoc]
    exact kids_append.mpr ⟨_,_,_,_,lower,⟨_,_,_,_,named ▸ sub,subtree_firstKey sub full found,upper,rfl,rfl⟩,rfl,rfl⟩
  · have cut := erased.within d.below d.above
    rwa [← d.split] at cut
  · obtain ⟨first,last⟩ := filled_append.mp (d.split ▸ filled)
    exact filled_append.mpr ⟨filled_append.mpr ⟨(filled_append.mp first).1,full⟩,last⟩

theorem Descent.regroup (owned : Counted lost t (inner + (id ::ₘ (d.lowerPages + d.upperPages) + rest))) :
    Counted lost t (id ::ₘ (d.lowerPages + (inner + d.upperPages)) + rest) := by
  refine Eq.mp (congrArg _ ?_) owned
  simp only [← Multiset.singleton_add]
  abel

theorem detach_gone (filled : Filled leaves)
    (sorted : Ascending Entry.key (contents leaves)) (empty : child.entries = []) (alone : d.middle = [leaf])
    (single : Single key leaf) (owned : Counted lost t (child.id ::ₘ (id ::ₘ (d.lowerPages + d.upperPages) + rest)))
    (kept : Keeps h t (id ::ₘ (d.lowerPages + d.upperPages) + rest)) :
    Meets (detachChild heapStore d.node (childIndexFor d.node.entries key) child isRoot) t
      (fun deleted last => deleted = true ∧ Trimmed lost isRoot d.node h last (height+1) id key leaves rest) Ordinary := by
  unfold detachChild
  rw [if_pos empty]
  refine meets_bind (release_meets owned) ?_
  rintro _ _ ⟨ownedFree,keptFree⟩
  have through := kept.trans keptFree
  obtain ⟨kids,erased,full⟩ := gone_parts d filled alone single through
  refine meets_bind (storeParent_meets d.named kids full (erased.sorted sorted) d.typ d.valid.next ownedFree) ?_
  rintro _ last ⟨found,valid,kidsLast,ownedLast,keptLast⟩
  have unshared : ¬ Shared d.node key leaves := by
    rw [Descent.shared d filled sorted]
    rintro ⟨_,member,other⟩
    obtain ⟨_,only,same⟩ := single
    rw [alone,contents_cons,only] at member
    exact other ((List.mem_singleton.mp (by simpa using member)) ▸ same)
  refine meets_pure ⟨rfl,1,d.before.length + d.after.length,.one unshared,?_,?_⟩
  · rw [d.shape,List.length_append,List.length_cons]
    omega
  rw [Nat.mul_one]
  have keptRest : Keeps h last rest := (through.mono fun _ member => by simp [member]).trans keptLast
  by_cases childless : d.before ++ d.after = []
  · obtain ⟨noBefore,noAfter⟩ := List.append_eq_nil_iff.mp childless
    have lowerNone := d.lowerKids
    have upperNone := d.upperKids
    rw [noBefore] at lowerNone
    rw [noAfter] at upperNone
    have only : leaves = [leaf] := by
      rw [d.split,lowerNone.1,upperNone.1,alone]
      rfl
    rw [lowerNone.2,upperNone.2,add_zero,Multiset.cons_add,zero_add] at ownedLast
    exact .gone found d.named d.typ valid ((Descent.erased_shape d).trans childless) (by simp [noBefore,noAfter]) only single ownedLast keptRest
  · refine .kept (branch_tree kidsLast found d.named d.typ valid (fun none => childless (Descent.erased_shape d ▸ none))) found ?_
      erased full ownedLast keptRest
    rw [← List.length_append,← Descent.erased_shape d]

theorem detach_kept (filled : Filled leaves)
    (sorted : Ascending Entry.key (contents leaves)) (named : child.id = d.entry.child) (some : child.entries ≠ [])
    (sub : Subtree (t.set child.id (.ok child)).nodes height child.id new inner) (erased : Erased key d.middle new)
    (full : Filled new) (owned : Counted lost t (inner + (id ::ₘ (d.lowerPages + d.upperPages) + rest)))
    (kept : Keeps h t (id ::ₘ (d.lowerPages + d.upperPages) + rest)) :
    Meets (detachChild heapStore d.node (childIndexFor d.node.entries key) child isRoot) t
      (fun deleted last => deleted = true ∧ Trimmed lost isRoot d.node h last (height+1) id key leaves rest) Ordinary := by
  unfold detachChild
  rw [if_neg some]
  obtain ⟨same,found,_,valid,held⟩ := subtree_root sub
  obtain rfl : child = same := Except.ok.inj ((set_same t child.id (.ok child)).symm.trans found)
  refine meets_bind (write_meets owned.toOwned (Multiset.mem_add.mpr (.inl held)) valid) ?_
  rintro _ _ ⟨rfl,_⟩
  have outside : child.id ∉ id ::ₘ (d.lowerPages + d.upperPages) + rest :=
    Multiset.disjoint_left.mp (Multiset.nodup_add.mp owned.nodup).2.2 held
  have through := kept.trans (keeps_set t (.ok child) outside)
  obtain ⟨kids,erasedAll,fullAll⟩ := kept_parts d filled named found sub erased full through
  have ownedAll := Descent.regroup d (@Counted.set _ child.id _ _ owned (.ok child))
  refine meets_bind (storeParent_meets d.named kids fullAll (erasedAll.sorted sorted) d.typ d.valid.next ownedAll) ?_
  rintro _ _ ⟨foundLast,validLast,kidsLast,ownedLast,keptLast⟩
  have shared : Shared d.node key leaves := by
    rw [Descent.shared d filled sorted]
    obtain ⟨e,member⟩ := List.exists_mem_of_ne_nil _ (filled_contents full (subtree_leaves sub))
    rw [erased.entries] at member
    exact ⟨e,((mem_drop Entry.key).mp member).1,((mem_drop Entry.key).mp member).2⟩
  refine meets_pure ⟨rfl,0,d.node.entries.length,.none shared,rfl,.kept (branch_tree kidsLast foundLast d.named d.typ
    validLast ?_) foundLast (List.length_modify _ _ _) erasedAll fullAll ownedLast
    ((through.mono fun _ member => by simp [member]).trans keptLast)⟩
  rw [Descent.renamed_shape d]
  simp

theorem detachChild_meets (filled : Filled leaves)
    (sorted : Ascending Entry.key (contents leaves)) (named : child.id = d.entry.child)
    (pending : Pending lost h t height child key d.middle (id ::ₘ (d.lowerPages + d.upperPages) + rest)) :
    Meets (detachChild heapStore d.node (childIndexFor d.node.entries key) child isRoot) t
      (fun deleted last => deleted = true ∧ Trimmed lost isRoot d.node h last (height+1) id key leaves rest) Ordinary := by
  cases pending with
  | kept some sub erased full owned kept => exact detach_kept d filled sorted named some sub erased full owned kept
  | gone empty alone single owned kept => exact detach_gone d filled sorted empty alone single owned kept

theorem leaf_pending (sub : Subtree h.nodes 0 id leaves pages) (found : h.nodes id = .ok child)
    (owned : Counted lost h (pages + rest)) {next : List Entry} (removed : deleteEntry child.entries key = some next) :
    Pending lost h h 0 {child with entries := next} key leaves rest := by
  obtain ⟨same,read,rfl,typ,valid,rfl,rfl⟩ := sub
  obtain rfl : child = same := Except.ok.inj (found.symm.trans read)
  rcases deleteEntry_exact valid.sorted key with ⟨none,_⟩ | ⟨exact,held⟩
  · rw [none] at removed
    cases removed
  · obtain rfl : SortedRun.drop Entry.key child.entries key = next := Option.some.inj (exact.symm.trans removed)
    by_cases empty : SortedRun.drop Entry.key child.entries key = []
    · refine .gone empty rfl (drop_single valid.sorted held empty) ?_ (Keeps.refl _ _)
      simpa [Multiset.singleton_add] using owned
    · refine .kept empty (leaf_tree (set_same _ _ _) rfl typ ?_) ⟨by simp,.inl ⟨fun _ => rfl,fun _ linked => linked⟩⟩ ?_
        owned (Keeps.refl _ _)
      · exact part_wellFormed valid rfl (List.filter_sublist) valid.next
      · simpa [Filled] using empty

theorem shrunk_pending (shrunk : Shrunk lost size h t (height+1) id key leaves rest) :
    ∃ again, t.nodes id = .ok again ∧ readNode id t = .ok again t ∧ again.id = id ∧
      Pending lost h t (height+1) again key leaves rest := by
  cases shrunk with
  | kept sub _ _ erased full owned kept =>
    obtain ⟨node,inner,found,rfl,typ,valid,some,kids,rfl⟩ := sub
    refine ⟨node,found,read_exact owned.toOwned (by simp) found,rfl,.kept some ?_ erased full owned kept⟩
    refine subtree_frame ?_ ⟨node,inner,found,rfl,typ,valid,some,kids,rfl⟩
    intro x _
    by_cases same : x = node.id
    · rw [same,set_same,found]
    · exact set_other _ _ same
  | gone found named _ _ empty _ alone single owned kept =>
    exact ⟨_,found,read_exact owned.toOwned (by simp) found,named,.gone empty alone single (named.symm ▸ owned) kept⟩

theorem Descent.absent (absent : ∀ e ∈ contents d.middle, e.key ≠ key) : ∀ e ∈ contents leaves, e.key ≠ key := by
  intro e member
  rw [d.split,contents_append,contents_append] at member
  rcases List.mem_append.mp member with first | last
  · rcases List.mem_append.mp first with low | middle
    · exact ne_of_lt (d.below e low)
    · exact absent e middle
  · exact ne_of_gt (d.above e last)

theorem Descent.present (present : ∃ e ∈ contents d.middle, e.key = key) : ∃ e ∈ contents leaves, e.key = key := by
  obtain ⟨e,member,same⟩ := present
  exact ⟨e,by rw [d.split]; simp [member],same⟩

end

def Outcome (lost : Nat) (isRoot : Bool) (node : Node) (h : Heap) (height id : Nat) (key : Bytes) (leaves : List Node)
    (rest : Multiset Nat) (deleted : Bool) (t : Heap) : Prop :=
  (deleted = true ∧ (∃ e ∈ contents leaves, e.key = key) ∧ Trimmed lost isRoot node h t height id key leaves rest) ∨
    (deleted = false ∧ t = h ∧ ∀ e ∈ contents leaves, e.key ≠ key)

theorem deleteFromBranch_meets (sub : Subtree h.nodes (height+1) id leaves pages) (found : h.nodes id = .ok node)
    (filled : Filled leaves) (sorted : Ascending Entry.key (contents leaves)) (owned : Counted lost h (pages + rest))
    (deep : height < depth) : Meets (deleteFromBranch heapStore depth node key isRoot) h
      (Outcome lost isRoot node h (height+1) id key leaves rest) Ordinary := by
  induction height using Nat.strongRecOn generalizing id node leaves pages rest depth isRoot with
  | ind height ih =>
    obtain ⟨d⟩ := descend key sub filled sorted
    obtain rfl : d.node = node := Except.ok.inj (d.found.symm.trans found)
    obtain ⟨depth,rfl⟩ : ∃ less, depth = less + 1 := ⟨depth - 1,by omega⟩
    obtain ⟨child,childFound,childNamed,_,childHeld⟩ := subtree_root d.middleTree
    have framed := d.parts rest ▸ owned
    unfold deleteFromBranch
    rw [if_neg (by rw [d.shape]; simp)]
    refine meets_ran (d.chosen h) (meets_ran (read_exact framed.toOwned (by simp [childHeld]) childFound) ?_)
    cases height with
    | zero =>
      obtain ⟨same,read,_,typ,valid,alone,_⟩ := d.middleTree
      obtain rfl : child = same := Except.ok.inj (childFound.symm.trans read)
      simp only [typ]
      cases removed : deleteEntry child.entries key with
      | none =>
        refine meets_pure (.inr ⟨rfl,rfl,Descent.absent d ?_⟩)
        rcases deleteEntry_exact valid.sorted key with ⟨_,absent⟩ | ⟨some,_⟩
        · simpa [alone] using absent
        · rw [removed] at some
          cases some
      | some =>
        have pending := leaf_pending d.middleTree childFound framed removed
        rw [typ] at pending
        have present : ∃ e ∈ contents d.middle, e.key = key := by
          rcases deleteEntry_exact valid.sorted key with ⟨none,_⟩ | ⟨_,held⟩
          · rw [removed] at none
            cases none
          · simpa [alone] using held
        exact meets_mono (detachChild_meets d filled sorted childNamed pending)
          (fun _ _ done => .inl ⟨done.1,Descent.present d present,done.2⟩)
    | succ height =>
      obtain ⟨same,_,read,_,typ,_⟩ := d.middleTree
      obtain rfl : child = same := Except.ok.inj (childFound.symm.trans read)
      simp only [typ]
      refine meets_bind (ih height height.lt_succ_self d.middleTree childFound (d.filled filled) (d.sorted sorted) framed (by omega)) ?_
      rintro deleted t (⟨rfl,present,_,_,_,_,shrunk⟩ | ⟨rfl,rfl,absent⟩)
      · rw [Bool.toNat_false,Nat.zero_mul,add_zero] at shrunk
        obtain ⟨_,_,readAgain,named,pending⟩ := shrunk_pending shrunk
        rw [if_pos rfl,childNamed]
        refine meets_ran readAgain ?_
        exact meets_mono (detachChild_meets d filled sorted named pending)
          (fun _ _ done => .inl ⟨done.1,Descent.present d present,done.2⟩)
      · exact meets_pure (.inr ⟨rfl,rfl,Descent.absent d absent⟩)

-- The state from which no operation on the tree succeeds.
structure Hollow (h : Heap) (root : Nat) : Prop where
  childless : ∃ node, h.nodes root = .ok node ∧ node.id = root ∧ node.typ = .branch ∧ node.entries = []
  owned : Owned h {root}

-- A root with one child takes the child's place; the child's page is not freed.
theorem collapse_meets {entry : Entry} (sub : Subtree h.nodes height entry.child leaves inner)
    (filled : Filled leaves) (sorted : Ascending Entry.key (contents leaves))
    (owned : Counted lost h (root ::ₘ inner)) : Meets (do
      let only ← readNode entry.child
      writeNode {only with id := root}) h
      (fun _ t => ∃ new, Planted (lost+1) t root new ∧ contents new = contents leaves ∧
        (Linked leaves 0 → Linked new 0)) Ordinary := by
  obtain ⟨only,found,_,valid,held⟩ := subtree_root sub
  have validCopy : WellFormed {only with id := root} :=
    ⟨valid.typed,valid.next,valid.sorted,valid.keyed,valid.children,valid.linked⟩
  refine meets_ran (read_exact owned.toOwned (by simp [held]) found) ?_
  refine meets_mono (write_meets owned.toOwned (by simp) validCopy) ?_
  rintro _ _ ⟨rfl,_⟩
  cases height with
  | zero =>
    obtain ⟨same,read,_,typ,_,rfl,rfl⟩ := sub
    obtain rfl : only = same := Except.ok.inj (found.symm.trans read)
    refine ⟨[{only with id := root}],⟨⟨0,_,leaf_tree (set_same _ _ _) rfl typ validCopy,.inl rfl,?_⟩,?_⟩,?_,?_⟩
    · have swapped : root ::ₘ {entry.child} = entry.child ::ₘ ({root} : Multiset Nat) := Multiset.cons_swap _ _ 0
      exact (swapped ▸ owned.set _ : Counted lost _ _).lose
    · simpa using sorted
    · simp
    · exact fun linked => linked
  | succ height =>
    obtain ⟨same,below,read,_,typ,_,some,kids,rfl⟩ := sub
    obtain rfl : only = same := Except.ok.inj (found.symm.trans read)
    have apart : root ∉ below := fun member => owned.apart (by simp [member])
    have kidsNow := keeps_kids (keeps_set h (.ok {only with id := root}) apart) kids
    have left : Counted lost (h.set root (.ok {only with id := root})) (entry.child ::ₘ root ::ₘ below) :=
      Multiset.cons_swap root entry.child below ▸ owned.set _
    exact ⟨leaves,⟨⟨height+1,_,⟨_,below,set_same _ _ _,rfl,typ,validCopy,some,kidsNow,rfl⟩,.inr filled,left.lose⟩,sorted⟩,
      rfl,fun linked => linked⟩

inductive Removed (h : Heap) (root : Nat) (key : Bytes) (leaves : List Node) (t : Heap) : Prop where
  | rooted {kept new : List Node} : Rooted t root new → Erased key leaves kept → contents new = contents kept →
      (Linked kept 0 → Linked new 0) → (∀ node, h.nodes root = .ok node → node.typ = .branch → contents kept ≠ []) →
      Removed h root key leaves t
  | hollow {node leaf : Node} : Hollow t root → h.nodes root = .ok node → node.typ = .branch → leaves = [leaf] →
      Single key leaf → Removed h root key leaves t

inductive Dropped (lost : Nat) (h : Heap) (root : Nat) (key : Bytes) (leaves : List Node) (t : Heap) : Prop where
  | rooted {kept new : List Node} : Planted lost t root new → Erased key leaves kept → contents new = contents kept →
      (Linked kept 0 → Linked new 0) → (∀ node, h.nodes root = .ok node → node.typ = .branch → contents kept ≠ []) →
      Dropped lost h root key leaves t
  | hollow {node leaf : Node} : Hollow t root → Counted lost t {root} → h.nodes root = .ok node → node.typ = .branch →
      leaves = [leaf] → Single key leaf → Dropped lost h root key leaves t

theorem Dropped.removed (dropped : Dropped lost h root key leaves t) : Removed h root key leaves t := by
  cases dropped with
  | rooted planted erased same linked some => exact .rooted planted.rooted erased same linked some
  | hollow hollow _ found typ alone single => exact .hollow hollow found typ alone single

-- A delete that loses no page: the key is not there, or a root branch keeps both
-- the child the key lies under and another one.
def Frugal (h : Heap) (root : Nat) (key : Bytes) (leaves : List Node) : Prop :=
  (∀ e ∈ contents leaves, e.key ≠ key) ∨ ∀ node, h.nodes root = .ok node → node.typ = .branch →
    2 ≤ node.entries.length ∧ Shared node key leaves

def Spends (lost : Nat) (h : Heap) (root : Nat) (key : Bytes) (leaves : List Node) (t : Heap) : Prop :=
  ∃ more, (more = 0 ↔ Frugal h root key leaves) ∧ Dropped (lost + more) h root key leaves t

theorem deleteRootLeaf_meets {root : Nat} (sub : Subtree h.nodes 0 root leaves pages) (found : h.nodes root = .ok node)
    (owned : Counted lost h pages) : Meets (match deleteEntry node.entries key with
      | none => pure ()
      | some next => writeNode {node with entries := next}) h (fun _ t =>
        Spends lost h root key leaves t) Ordinary := by
  obtain ⟨same,read,rfl,typ,valid,rfl,rfl⟩ := sub
  obtain rfl : node = same := Except.ok.inj (found.symm.trans read)
  have notBranch : ∀ other, h.nodes node.id = .ok other → other.typ = .branch → False := by
    intro other again branch
    cases found.symm.trans again
    rw [typ] at branch
    cases branch
  have frugal : 0 = 0 ↔ Frugal h node.id key [node] :=
    ⟨fun _ => .inr fun other again branch => (notBranch other again branch).elim,fun _ => rfl⟩
  rcases deleteEntry_exact valid.sorted key with ⟨none,absent⟩ | ⟨some,_⟩
  · simp only [none]
    exact meets_pure ⟨0,frugal,.rooted ⟨⟨0,_,leaf_tree found rfl typ valid,.inl rfl,owned⟩,by simpa using valid.sorted⟩
      (erased_absent (by simpa using absent)) rfl (fun linked => linked)
      fun other again branch => (notBranch other again branch).elim⟩
  · simp only [some]
    have validNext : WellFormed {node with entries := SortedRun.drop Entry.key node.entries key} :=
      part_wellFormed valid rfl List.filter_sublist valid.next
    refine meets_mono (write_meets owned.toOwned (by simp) validNext) ?_
    rintro _ _ ⟨rfl,_⟩
    have erased : Erased key [node] [{node with entries := SortedRun.drop Entry.key node.entries key}] :=
      ⟨by simp,.inl ⟨fun _ => rfl,fun _ linked => linked⟩⟩
    exact ⟨0,frugal,.rooted ⟨⟨0,_,leaf_tree (set_same _ _ _) rfl typ validNext,.inl rfl,owned.set _⟩,
      by simpa using validNext.sorted⟩ erased rfl (fun linked => linked)
      fun other again branch => (notBranch other again branch).elim⟩

-- The key was there, so a delete is frugal by what the root keeps.
theorem frugal_branch (found : h.nodes root = .ok node) (typ : node.typ = .branch)
    (held : ∃ e ∈ contents leaves, e.key = key) :
    Frugal h root key leaves ↔ 2 ≤ node.entries.length ∧ Shared node key leaves := by
  obtain ⟨e,member,same⟩ := held
  constructor
  · rintro (absent | keeps)
    · exact absurd same (absent e member)
    · exact keeps node found typ
  · intro keeps
    refine .inr fun other again _ => ?_
    cases found.symm.trans again
    exact keeps

theorem deleteRootBranch_meets (sub : Subtree h.nodes (height+1) root leaves pages) (found : h.nodes root = .ok node)
    (typ : node.typ = .branch) (named : node.id = root) (filled : Filled leaves)
    (sorted : Ascending Entry.key (contents leaves)) (owned : Counted lost h pages) : Meets (do
      let depth ← NodeHeap.pageCount
      let deleted ← deleteFromBranch heapStore depth node key true
      if deleted then
        let node ← readNode node.id
        if node.entries.length = 1 then
          let entry ← entryAt node.entries 0
          let only ← readNode entry.child
          writeNode {only with id := root}
        else writeNode node
      else pure ()) h (fun _ t => Spends lost h root key leaves t) Ordinary := by
  have deep : height < h.pageCount := Nat.lt_of_succ_lt (Nat.lt_of_lt_of_le (subtree_height sub) owned.count)
  refine meets_ran (a := h.pageCount) (t := h) rfl ?_
  have framed : Counted lost h (pages + 0) := by rwa [add_zero]
  refine meets_bind (deleteFromBranch_meets sub found filled sorted framed deep) ?_
  rintro deleted t (⟨rfl,held,cut,size,lostCut,sizes,shrunk⟩ | ⟨rfl,rfl,absent⟩)
  · rw [Bool.toNat_true,Nat.one_mul] at shrunk
    have frugal := frugal_branch found typ held
    cases shrunk with
    | @kept again _ _ subNow foundNow sizeNow erased full ownedNow =>
      have some := filled_contents full (subtree_leaves subNow)
      obtain ⟨same,_,foundToo,namedNow,typNow,validNow,someNow,kids,rfl⟩ := subNow
      obtain rfl : again = same := Except.ok.inj (foundNow.symm.trans foundToo)
      rw [add_zero] at ownedNow
      refine meets_ran (named ▸ read_exact ownedNow.toOwned (by simp) foundNow) ?_
      match shape : again.entries,kids with
      | [],_ => exact absurd shape someNow
      | [entry],kids =>
        refine meets_ran (a := entry) (t := t) rfl ?_
        refine meets_mono (collapse_meets (kids_single kids).1 full (erased.sorted sorted) ownedNow) ?_
        rintro _ _ ⟨_,planted,same,linked⟩
        refine ⟨cut+1,?_,.rooted planted erased same linked fun _ _ _ => some⟩
        rw [frugal]
        refine ⟨fun none => absurd none (Nat.succ_ne_zero _),fun ⟨two,shared⟩ => ?_⟩
        rw [shape,List.length_singleton] at sizeNow
        cases lostCut with
        | none => omega
        | one unshared => exact absurd shared unshared
      | first :: second :: others,kids =>
        rw [← shape] at kids
        refine meets_mono (write_meets ownedNow.toOwned (by simp [namedNow]) validNow) ?_
        rintro _ _ ⟨rfl,_⟩
        subst namedNow
        have below := keeps_kids (keeps_set t (.ok again) ownedNow.apart) kids
        refine ⟨cut,?_,.rooted ⟨⟨_,_,branch_tree below (set_same _ _ _) rfl typNow validNow someNow,.inr full,
          ownedNow.set _⟩,erased.sorted sorted⟩ erased rfl (fun linked => linked) fun _ _ _ => some⟩
        rw [frugal]
        rw [shape,List.length_cons,List.length_cons] at sizeNow
        cases lostCut with
        | none shared => exact ⟨fun _ => ⟨by omega,shared⟩,fun _ => rfl⟩
        | one unshared => exact ⟨nofun,fun keeps => absurd keeps.2 unshared⟩
    | @gone again _ foundNow namedNow typNow validNow empty _ alone single ownedNow =>
      refine meets_ran (named ▸ read_exact ownedNow.toOwned (by simp) foundNow) ?_
      rw [if_neg (by simp [empty])]
      refine meets_mono (write_meets ownedNow.toOwned (by simp [namedNow]) validNow) ?_
      rintro _ _ ⟨rfl,_⟩
      refine ⟨cut,?_,.hollow ⟨⟨again,namedNow ▸ set_same _ _ _,namedNow,typNow,empty⟩,(ownedNow.set _).toOwned⟩
        (ownedNow.set _) found typ alone single⟩
      rw [frugal]
      cases lostCut with
      | none shared =>
        obtain ⟨_,member,other,_⟩ := shared
        obtain ⟨_,only,same⟩ := single
        rw [alone,contents_cons,only] at member
        exact absurd ((List.mem_singleton.mp (by simpa using member)) ▸ same) other
      | one unshared => exact ⟨nofun,fun keeps => absurd keeps.2 unshared⟩
  · exact meets_pure ⟨0,⟨fun _ => .inl absent,fun _ => rfl⟩,.rooted ⟨⟨_,_,sub,.inr filled,owned⟩,sorted⟩
      (erased_absent absent) rfl (fun linked => linked) fun _ _ _ => filled_contents filled (subtree_leaves sub)⟩

theorem delete_counted (planted : Planted lost h root leaves) :
    Meets (delete heapStore root key) h (fun _ t => key ≠ [] ∧ Spends lost h root key leaves t) Ordinary := by
  obtain ⟨⟨height,_,sub,full,owned⟩,sorted⟩ := planted
  unfold delete
  by_cases empty : key.length = 0
  · rw [if_pos empty]
    exact meets_throw rfl
  rw [if_neg empty]
  have keyed : key ≠ [] := fun none => empty (by simp [none])
  obtain ⟨node,found,named,_,held⟩ := subtree_root sub
  refine meets_ran (read_exact owned.toOwned held found) ?_
  cases height with
  | zero =>
    have tree := sub
    obtain ⟨same,read,_,typ,_⟩ := tree
    obtain rfl : node = same := Except.ok.inj (found.symm.trans read)
    have done := @deleteRootLeaf_meets _ _ _ _ h key root sub found owned
    simp only [typ] at done ⊢
    exact meets_mono done (fun _ _ spends => ⟨keyed,spends⟩)
  | succ height =>
    have tree := sub
    obtain ⟨same,_,read,_,typ,_⟩ := tree
    obtain rfl : node = same := Except.ok.inj (found.symm.trans read)
    have filled : Filled leaves := full.resolve_left (Nat.succ_ne_zero height)
    simp only [typ]
    exact meets_mono (deleteRootBranch_meets sub found typ named filled sorted owned)
      (fun _ _ spends => ⟨keyed,spends⟩)

theorem delete_meets (rooted : Rooted h root leaves) :
    Meets (delete heapStore root key) h (fun _ t => key ≠ [] ∧ Removed h root key leaves t) Ordinary := by
  obtain ⟨_,planted⟩ := rooted.planted
  refine meets_mono (delete_counted planted) ?_
  rintro _ _ ⟨keyed,_,_,dropped⟩
  exact ⟨keyed,dropped.removed⟩

end Kronos.BTreeDelete
