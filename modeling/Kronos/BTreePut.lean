import Kronos.BTreeShape

namespace Kronos.BTreePut
open ByteRange SortedRun BTreeNode BTree BTreeEntries BTreeShape NodeHeap Effect

variable {id height depth lost : Nat} {node : Node} {pages rest inner : Multiset Nat} {leaves : List Node} {h t : Heap}
  {key value : Bytes} {split : Option Entry}

inductive Rewritten (lost : Nat) (h : Heap) (node : Node) (rest : Multiset Nat) (t : Heap) : Option Entry → Prop where
  | whole : t.nodes node.id = .ok node → Counted lost t (node.id ::ₘ rest) → Keeps h t rest →
      Rewritten lost h node rest t none
  | halves : left ++ right = node.entries → left ≠ [] → right ≠ [] →
      t.nodes node.id = .ok {node with entries := left,next := if node.typ = .leaf then rightID else 0} →
      t.nodes rightID = .ok ⟨rightID,node.typ,if node.typ = .leaf then node.next else 0,right⟩ →
      WellFormed {node with entries := left,next := if node.typ = .leaf then rightID else 0} →
      WellFormed ⟨rightID,node.typ,if node.typ = .leaf then node.next else 0,right⟩ →
      Counted lost t (node.id ::ₘ rightID ::ₘ rest) → Keeps h t rest →
      Rewritten lost h node rest t (some ⟨firstKey right,[],rightID⟩)

theorem part_wellFormed (valid : WellFormed node) (typ : part.typ = node.typ)
    (fewer : part.entries.Sublist node.entries) (next : part.next < 2 ^ 64) : WellFormed part where
  typed := typ ▸ valid.typed
  next := next
  sorted := valid.sorted.sublist fewer
  keyed := fun e member => valid.keyed e (fewer.subset member)
  children := fun e member => valid.children e (fewer.subset member)
  linked := fun branch e member => valid.linked (typ ▸ branch) e (fewer.subset member)

theorem right_nonempty (large : nodeFits node = false) (fits : nodeFits part = true)
    (half : part.entries = (splitEntries node.entries).1) : (splitEntries node.entries).2 ≠ [] := by
  intro none
  have parts : (splitEntries node.entries).1 ++ (splitEntries node.entries).2 = node.entries :=
    List.take_append_drop _ _
  rw [none,List.append_nil] at parts
  simp only [nodeFits,half,parts] at large fits
  rw [fits] at large
  cases large

theorem large_nonempty (large : nodeFits node = false) : node.entries ≠ [] := by
  intro none
  simp [nodeFits,nodeUsed,none,nodeHeaderSize,pageSize] at large

theorem splitNonRoot_meets (owned : Counted lost h (node.id ::ₘ rest)) (valid : WellFormed node)
    (large : nodeFits node = false) :
    Meets (splitNonRoot heapStore node) h (fun split t => Rewritten lost h node rest t split) Ordinary := by
  obtain ⟨parts,leftSome⟩ := splitEntries_parts node.entries (large_nonempty large)
  refine meets_bind (alloc_counted owned) ?_
  rintro rightID _ ⟨ownedNew,kept⟩
  have fresh : rightID ∉ node.id ::ₘ rest := ownedNew.apart
  have apart : rightID ≠ node.id := fun same => fresh (by simp [same])
  have inside : node.id ∈ rightID ::ₘ node.id ::ₘ rest := by simp
  have validLeft : WellFormed {node with
      entries := (splitEntries node.entries).1
      next := if node.typ = .leaf then rightID else 0} := by
    refine part_wellFormed valid rfl (List.take_sublist _ _) ?_
    change (if node.typ = .leaf then rightID else 0) < 2 ^ 64
    split
    · exact ownedNew.small_id (Multiset.mem_cons_self _ _)
    · decide
  have validRight : WellFormed ⟨rightID,node.typ,if node.typ = .leaf then node.next else 0,
      (splitEntries node.entries).2⟩ := by
    refine part_wellFormed valid rfl (List.drop_sublist _ _) ?_
    change (if node.typ = .leaf then node.next else 0) < 2 ^ 64
    split
    · exact valid.next
    · decide
  refine meets_bind (write_meets ownedNew.toOwned inside validLeft) ?_
  rintro _ _ ⟨rfl,fits⟩
  refine meets_bind (write_meets (ownedNew.set _).toOwned (Multiset.mem_cons_self _ _) validRight) ?_
  rintro _ _ ⟨rfl,_⟩
  refine meets_pure (Rewritten.halves parts leftSome (right_nonempty large fits rfl) ?_ (set_same _ _ _)
    validLeft validRight ?_ ?_)
  · rw [set_other _ _ (Ne.symm apart)]
    exact set_same _ _ _
  · rw [Multiset.cons_swap]
    exact (ownedNew.set _).set _
  · intro other member
    have first : other ≠ node.id := fun same => owned.apart (same ▸ member)
    have second : other ≠ rightID := fun same => fresh (Multiset.mem_cons_of_mem (same ▸ member))
    rw [set_other _ _ second,set_other _ _ first]
    exact kept other (Multiset.mem_cons_of_mem member)

theorem writeOrSplit_meets (owned : Counted lost h (node.id ::ₘ rest)) (valid : WellFormed node) :
    Meets (writeOrSplit heapStore node) h (fun split t => Rewritten lost h node rest t split) Ordinary := by
  unfold writeOrSplit
  cases fits : nodeFits node with
  | true =>
    refine meets_bind (write_meets owned.toOwned (Multiset.mem_cons_self _ _) valid) ?_
    rintro _ _ ⟨rfl,_⟩
    exact meets_pure (.whole (set_same _ _ _) (owned.set _) (keeps_set _ _ owned.apart))
  | false => exact splitNonRoot_meets owned valid fits

-- What a parent sees of a child that was put into: the child under its old
-- page, and next to it the sibling a split made.
def Regrown (lost : Nat) (h t : Heap) (height id : Nat) (split : Option Entry) (leaves : List Node) (rest : Multiset Nat) : Prop :=
  ∃ separator pages, Kids (Subtree t.nodes height) (⟨separator,[],id⟩ :: split.toList) leaves pages ∧
    Counted lost t (pages + rest) ∧ Keeps h t rest

theorem leaf_tree (found : t.nodes id = .ok node) (named : node.id = id) (typ : node.typ = .leaf)
    (valid : WellFormed node) : Subtree t.nodes 0 id [node] {id} := ⟨node,found,named,typ,valid,rfl,rfl⟩

theorem rewritten_leaf (done : Rewritten lost h node rest t split) (typ : node.typ = .leaf) (valid : WellFormed node)
    (some : node.entries ≠ []) : ∃ new, Regrown lost h t 0 node.id split new rest ∧ contents new = node.entries ∧
      Filled new ∧ Relinked [node] new := by
  cases done with
  | whole found _ kept =>
    refine ⟨[node],⟨_,_,kids_cons (leaf_tree found rfl typ valid) rfl,?_,kept⟩,by simp,?_,Relinked.refl _⟩
    · rwa [Multiset.singleton_add]
    · simpa [Filled] using some
  | @halves _ _ _ parts leftSome rightSome first second validLeft validRight _ kept =>
    rw [if_pos typ] at first second validLeft validRight
    have leftTree := leaf_tree first rfl typ validLeft
    have rightTree := leaf_tree second rfl typ validRight
    refine ⟨_,⟨_,_,⟨_,_,_,_,leftTree,rfl,kids_cons rightTree (by simp),rfl,rfl⟩,?_,kept⟩,?_,?_,?_,?_⟩
    · rwa [add_assoc,Multiset.singleton_add,Multiset.singleton_add]
    · simpa using parts
    · simpa [Filled] using And.intro leftSome rightSome
    · intro tail; rfl
    · rintro _ ⟨next,_⟩
      exact ⟨rfl,next,trivial⟩

theorem branch_tree (kids : Kids (Subtree t.nodes height) node.entries leaves inner)
    (found : t.nodes id = .ok node) (named : node.id = id) (typ : node.typ = .branch) (valid : WellFormed node)
    (some : node.entries ≠ []) : Subtree t.nodes (height+1) id leaves (id ::ₘ inner) :=
  ⟨node,inner,found,named,typ,valid,some,kids,rfl⟩

theorem keeps_kids (kept : Keeps h t inner) (kids : Kids (Subtree h.nodes height) entries leaves inner) :
    Kids (Subtree t.nodes height) entries leaves inner :=
  kids_frame (fun _ _ _ fewer sub => subtree_frame (fun x member => kept x (Multiset.mem_of_le fewer member)) sub) kids

theorem rewritten_branch (done : Rewritten lost h node (inner + rest) t split) (typ : node.typ = .branch)
    (valid : WellFormed node) (some : node.entries ≠ []) (filled : Filled leaves)
    (kids : Kids (Subtree h.nodes height) node.entries leaves inner) :
    Regrown lost h t (height+1) node.id split leaves rest := by
  cases done with
  | whole found _ kept =>
    have below := keeps_kids (kept.mono fun _ member => Multiset.mem_add.mpr (.inl member)) kids
    refine ⟨_,_,kids_cons (branch_tree below found rfl typ valid some) rfl,?_,
      kept.mono fun _ member => Multiset.mem_add.mpr (.inr member)⟩
    rwa [Multiset.cons_add]
  | @halves _ _ _ parts leftSome rightSome first second validLeft validRight owned kept =>
    have below := keeps_kids (kept.mono fun _ member => Multiset.mem_add.mpr (.inl member)) kids
    rw [← parts,kids_append] at below
    obtain ⟨_,_,_,_,leftKids,rightKids,rfl,rfl⟩ := below
    have leftTree := branch_tree leftKids first rfl typ validLeft leftSome
    have rightTree := branch_tree rightKids second rfl typ validRight rightSome
    have separator := subtree_firstKey rightTree (filled_append.mp filled).2 second
    refine ⟨_,_,⟨_,_,_,_,leftTree,rfl,kids_cons rightTree separator,rfl,rfl⟩,?_,
      kept.mono fun _ member => Multiset.mem_add.mpr (.inr member)⟩
    refine Eq.mp (congrArg _ ?_) owned
    simp only [← Multiset.singleton_add]
    abel

structure Inserted (key value : Bytes) (old new : List Node) : Prop where
  entries : contents new = SortedRun.put Entry.key (contents old) ⟨key,value,0⟩
  filled : Filled new
  relinked : Relinked old new

theorem Inserted.within (inserted : Inserted key value old new) (filled : Filled (lower ++ old ++ upper))
    (below : ∀ e ∈ contents lower, e.key < key) (above : ∀ e ∈ contents upper, key < e.key) :
    Inserted key value (lower ++ old ++ upper) (lower ++ new ++ upper) where
  entries := by
    simp only [contents_append,inserted.entries]
    exact (@put_between _ _ _ Entry.key _ _ _ ⟨key,value,0⟩ below above).symm
  filled := by
    obtain ⟨first,last⟩ := filled_append.mp filled
    exact filled_append.mpr ⟨filled_append.mpr ⟨(filled_append.mp first).1,inserted.filled⟩,last⟩
  relinked := inserted.relinked.within lower upper

theorem Inserted.sorted {old new : List Node} (inserted : Inserted key value old new)
    (sorted : Ascending Entry.key (contents old)) : Ascending Entry.key (contents new) :=
  inserted.entries ▸ put_ascending Entry.key sorted _

theorem modify_place (before : List Entry) (entry : Entry) (after : List Entry) (change : Entry → Entry) :
    (before ++ entry :: after).modify before.length change = before ++ change entry :: after := by
  induction before with
  | nil => rfl
  | cons _ _ ih => simpa using ih

theorem adoptChild_place {before after : List Entry} {entry : Entry} {child : Node}
    (sorted : Ascending Entry.key (before ++ {entry with key := firstKey child.entries} :: (split.toList ++ after))) :
    adoptChild (before ++ entry :: after) before.length child split =
      before ++ {entry with key := firstKey child.entries} :: (split.toList ++ after) := by
  simp only [adoptChild,Int.toNat_natCast,modify_place]
  cases split with
  | none => rfl
  | some sibling =>
    obtain ⟨_,later,across⟩ := ascending_append.mp sorted
    obtain ⟨afterFirst,afterRest⟩ := List.pairwise_cons.mp later
    have right : ∀ e ∈ after, sibling.key < e.key := (List.pairwise_cons.mp afterRest).1
    have left : ∀ e ∈ before ++ [{entry with key := firstKey child.entries}], e.key < sibling.key := by
      intro e member
      rcases List.mem_append.mp member with old | new
      · exact across e old sibling (by simp)
      · rw [List.mem_singleton.mp new]
        exact afterFirst sibling (by simp)
    have placed := insertEntry_between left right
    simpa [List.append_assoc] using placed

theorem adopt_kids (d : Descent h.nodes height id key leaves pages) (filled : Filled leaves)
    (sorted : Ascending Entry.key (contents leaves)) (inserted : Inserted key value d.middle new)
    (regrown : Regrown lost h t height d.entry.child split new (id ::ₘ (d.lowerPages + d.upperPages) + rest))
    (found : t.nodes d.entry.child = .ok child)
    (same : updated = {d.node with entries := adoptChild d.node.entries (childIndexFor d.node.entries key) child split}) :
    ∃ leaves' inner, Inserted key value leaves leaves' ∧ Kids (Subtree t.nodes height) updated.entries leaves' inner ∧
      WellFormed updated ∧ updated.entries ≠ [] ∧ updated.id = id ∧ updated.typ = .branch ∧
      Counted lost t (updated.id ::ₘ (inner + rest)) ∧ Keeps h t rest := by
  obtain ⟨_,_,⟨a,p,b,q,sub,_,sibling,rfl,rfl⟩,owned,kept⟩ := regrown
  have full : Inserted key value leaves (d.lower ++ (a ++ b) ++ d.upper) := by
    have placed := inserted.within (d.split ▸ filled) d.below d.above
    rwa [← d.split] at placed
  have least := subtree_firstKey sub (filled_append.mp inserted.filled).1 found
  have lower := keeps_kids (kept.mono fun _ member => by simp [member]) d.lowerKids
  have upper := keeps_kids (kept.mono fun _ member => by simp [member]) d.upperKids
  have kids : Kids (Subtree t.nodes height) (d.before ++ {d.entry with key := firstKey child.entries} ::
      (split.toList ++ d.after)) (d.lower ++ (a ++ b) ++ d.upper) (d.lowerPages + (p + (q + d.upperPages))) := by
    rw [List.append_assoc,List.append_assoc]
    exact kids_append.mpr ⟨_,_,_,_,lower,⟨_,_,_,_,sub,least,
      kids_append.mpr ⟨_,_,_,_,sibling,upper,rfl,rfl⟩,rfl,rfl⟩,rfl,rfl⟩
  have adopted := @adoptChild_place split d.before d.after d.entry child (kids_sorted kids full.filled (full.sorted sorted))
  have shape : updated.entries = d.before ++ {d.entry with key := firstKey child.entries} :: (split.toList ++ d.after) := by
    rw [same]
    change adoptChild d.node.entries (childIndexFor d.node.entries key) child split = _
    rw [d.index,d.shape]
    exact adopted
  have named : updated.id = id := by rw [same]; exact d.named
  have typ : updated.typ = .branch := by rw [same]; exact d.typ
  have owned' : Counted lost t (id ::ₘ (d.lowerPages + (p + (q + d.upperPages)) + rest)) := by
    refine Eq.mp (congrArg _ ?_) owned
    simp only [← Multiset.singleton_add]
    abel
  refine ⟨_,_,full,shape ▸ kids,kids_wellFormed kids full.filled (full.sorted sorted) ?_ ?_ typ shape,?_,named,typ,
    named ▸ owned',kept.mono fun _ member => by simp [member]⟩
  · intro x member
    have held : x ∈ id ::ₘ (d.lowerPages + (p + (q + d.upperPages)) + rest) :=
      Multiset.mem_cons_of_mem (Multiset.mem_add.mpr (.inl member))
    exact ⟨(owned'.held held).1,owned'.small_id held⟩
  · rw [same]; exact d.valid.next
  · rw [shape]; simp

theorem insert_wellFormed (valid : WellFormed node) (keyed : key ≠ []) (typ : node.typ = .leaf) :
    WellFormed {node with entries := insertEntry node.entries ⟨key,value,0⟩} := by
  have exact := insertEntry_exact valid.sorted ⟨key,value,0⟩
  refine ⟨valid.typed,valid.next,?_,?_,?_,?_⟩
  · change Ascending Entry.key (insertEntry node.entries ⟨key,value,0⟩)
    rw [exact]
    exact put_ascending Entry.key valid.sorted _
  · intro e member
    change e ∈ insertEntry node.entries ⟨key,value,0⟩ at member
    rw [exact] at member
    rcases (mem_put Entry.key).mp member with rfl | ⟨old,_⟩
    · exact keyed
    · exact valid.keyed e old
  · intro e member
    change e ∈ insertEntry node.entries ⟨key,value,0⟩ at member
    rw [exact] at member
    rcases (mem_put Entry.key).mp member with rfl | ⟨old,_⟩
    · exact Nat.two_pow_pos 64
    · exact valid.children e old
  · intro branch
    change node.typ = .branch at branch
    rw [typ] at branch
    cases branch

theorem insert_nonempty (valid : WellFormed node) : insertEntry node.entries ⟨key,value,0⟩ ≠ [] := by
  rw [insertEntry_exact valid.sorted,SortedRun.put]
  simp

theorem putNonRoot_leaf (typ : node.typ = .leaf) : putNonRoot heapStore (depth+1) node key value =
    writeOrSplit heapStore {node with entries := insertEntry node.entries ⟨key,value,0⟩} := by
  simp only [putNonRoot,typ]

theorem putNonRoot_branch (typ : node.typ = .branch) : putNonRoot heapStore (depth+1) node key value = (do
    let entry ← entryAt node.entries (childIndexFor node.entries key) let child ← readNode entry.child
    let split ← putNonRoot heapStore depth child key value let child ← readNode entry.child
    writeOrSplit heapStore {node with
      entries := adoptChild node.entries (childIndexFor node.entries key) child split}) := by
  simp only [putNonRoot,typ]
  rfl

theorem Regrown.root (regrown : Regrown lost h t height id split new rest) :
    ∃ child, t.nodes id = .ok child ∧ readNode id t = .ok child t := by
  obtain ⟨_,_,⟨_,_,_,_,sub,_,_,_,rfl⟩,owned,_⟩ := regrown
  obtain ⟨child,found,_,_,held⟩ := subtree_root sub
  exact ⟨child,found,read_exact owned.toOwned (by simp [held]) found⟩

theorem putNonRoot_meets (sub : Subtree h.nodes height id leaves pages) (found : h.nodes id = .ok node)
    (filled : Filled leaves) (sorted : Ascending Entry.key (contents leaves)) (owned : Counted lost h (pages + rest))
    (deep : height < depth) (keyed : key ≠ []) : Meets (putNonRoot heapStore depth node key value) h (fun split t =>
      ∃ new, Inserted key value leaves new ∧ Regrown lost h t height id split new rest) Ordinary := by
  induction height generalizing id node leaves pages rest depth with
  | zero =>
    obtain ⟨same,read,rfl,typ,valid,rfl,rfl⟩ := sub
    obtain rfl : node = same := Except.ok.inj (found.symm.trans read)
    obtain ⟨depth,rfl⟩ : ∃ less, depth = less + 1 := ⟨depth - 1,by omega⟩
    have validNew : WellFormed {node with entries := insertEntry node.entries ⟨key,value,0⟩} :=
      insert_wellFormed valid keyed typ
    rw [putNonRoot_leaf typ]
    refine meets_mono (writeOrSplit_meets owned validNew) (fun split t done => ?_)
    obtain ⟨new,regrown,held,full,relinked⟩ := rewritten_leaf done typ validNew (insert_nonempty valid)
    refine ⟨new,⟨?_,full,relinked⟩,regrown⟩
    rw [held]
    simpa using insertEntry_exact valid.sorted ⟨key,value,0⟩
  | succ _ ih =>
    obtain ⟨d⟩ := descend key sub filled sorted
    obtain rfl : d.node = node := Except.ok.inj (d.found.symm.trans found)
    obtain ⟨depth,rfl⟩ : ∃ less, depth = less + 1 := ⟨depth - 1,by omega⟩
    obtain ⟨_,childFound,_,_,childHeld⟩ := subtree_root d.middleTree
    have framed := d.parts rest ▸ owned
    rw [putNonRoot_branch d.typ]
    refine meets_ran (d.chosen h) (meets_ran (read_exact framed.toOwned (by simp [childHeld]) childFound) ?_)
    refine meets_bind (ih d.middleTree childFound (d.filled filled) (d.sorted sorted) framed (by omega)) ?_
    rintro split _ ⟨_,inserted,regrown⟩
    obtain ⟨_,foundAgain,readAgain⟩ := regrown.root
    refine meets_ran readAgain ?_
    obtain ⟨all,_,full,kids,valid,some,named,typ,ownedAll,kept⟩ :=
      adopt_kids d filled sorted inserted regrown foundAgain rfl
    refine meets_mono (writeOrSplit_meets ownedAll valid) (fun split last done => ⟨all,full,?_⟩)
    obtain ⟨separator,pages,grown,ownedLast,keptLast⟩ := rewritten_branch done typ valid some full.filled kids
    rw [named] at grown
    exact ⟨separator,pages,grown,ownedLast,kept.trans keptLast⟩

-- A root that overflows keeps its page and gets two children.
structure RootSplit (lost : Nat) (h : Heap) (root : Node) (link : Nat → Nat) (rest : Multiset Nat) (t : Heap)
    (leftID rightID : Nat) (left right : List Entry) : Prop where
  parts : left ++ right = root.entries
  leftSome : left ≠ []
  rightSome : right ≠ []
  first : t.nodes leftID = .ok ⟨leftID,root.typ,link rightID,left⟩
  second : t.nodes rightID = .ok ⟨rightID,root.typ,0,right⟩
  top : t.nodes root.id = .ok ⟨root.id,.branch,0,[⟨firstKey left,[],leftID⟩,⟨firstKey right,[],rightID⟩]⟩
  validLeft : WellFormed ⟨leftID,root.typ,link rightID,left⟩
  validRight : WellFormed ⟨rightID,root.typ,0,right⟩
  validTop : WellFormed ⟨root.id,.branch,0,[⟨firstKey left,[],leftID⟩,⟨firstKey right,[],rightID⟩]⟩
  owned : Counted lost t (root.id ::ₘ leftID ::ₘ rightID ::ₘ rest)
  kept : Keeps h t rest

theorem top_wellFormed {leftID rightID : Nat} {left right : List Entry} (valid : WellFormed node)
    (parts : left ++ right = node.entries) (leftSome : left ≠ []) (rightSome : right ≠ [])
    (owned : Owned h (rightID ::ₘ leftID ::ₘ rest)) :
    WellFormed ⟨id,.branch,0,[⟨firstKey left,[],leftID⟩,⟨firstKey right,[],rightID⟩]⟩ := by
  obtain ⟨a,inLeft,least⟩ := firstKey_mem leftSome
  obtain ⟨b,inRight,next⟩ := firstKey_mem rightSome
  have sorted := valid.sorted
  rw [← parts] at sorted
  have less : firstKey left < firstKey right := by
    rw [← least,← next]
    exact (ascending_append.mp sorted).2.2 a inLeft b inRight
  have leftIn : leftID ∈ rightID ::ₘ leftID ::ₘ rest := by simp
  have rightIn : rightID ∈ rightID ::ₘ leftID ::ₘ rest := by simp
  have keyed : ∀ e ∈ left ++ right, e.key ≠ [] := parts ▸ valid.keyed
  refine ⟨nofun,Nat.two_pow_pos 64,?_,?_,?_,?_⟩
  · simpa [Ascending] using less
  · have one := least ▸ keyed a (by simp [inLeft])
    have two := next ▸ keyed b (by simp [inRight])
    simpa using And.intro one two
  · simpa using And.intro (owned.small_id leftIn) (owned.small_id rightIn)
  · simpa using And.intro (owned.held leftIn).1 (owned.held rightIn).1

theorem splitRoot_meets {link : Nat → Nat} (owned : Counted lost h (node.id ::ₘ rest)) (valid : WellFormed node)
    (large : nodeFits node = false) (small : ∀ n, n < 2 ^ 64 → link n < 2 ^ 64) : Meets (do
      let leftID ← allocPage
      let rightID ← allocPage
      writeNode ⟨leftID,node.typ,link rightID,(splitEntries node.entries).1⟩
      writeNode ⟨rightID,node.typ,0,(splitEntries node.entries).2⟩
      writeNode ⟨node.id,.branch,0,[⟨firstKey (splitEntries node.entries).1,[],leftID⟩,
        ⟨firstKey (splitEntries node.entries).2,[],rightID⟩]⟩) h
      (fun _ t => ∃ leftID rightID left right, RootSplit lost h node link rest t leftID rightID left right) Ordinary := by
  obtain ⟨parts,leftSome⟩ := splitEntries_parts node.entries (large_nonempty large)
  refine meets_bind (alloc_counted owned) ?_
  rintro leftID _ ⟨ownedLeft,keptLeft⟩
  refine meets_bind (alloc_counted ownedLeft) ?_
  rintro rightID b ⟨ownedBoth,keptRight⟩
  have freshLeft : leftID ∉ node.id ::ₘ rest := ownedLeft.apart
  have freshRight : rightID ∉ leftID ::ₘ node.id ::ₘ rest := ownedBoth.apart
  have leftTop : leftID ≠ node.id := fun same => freshLeft (by simp [same])
  have rightTop : rightID ≠ node.id := fun same => freshRight (by simp [same])
  have apart : rightID ≠ leftID := fun same => freshRight (by simp [same])
  have validLeft : WellFormed ⟨leftID,node.typ,link rightID,(splitEntries node.entries).1⟩ :=
    part_wellFormed valid rfl (List.take_sublist _ _) (small _ (ownedBoth.small_id (by simp)))
  have validRight : WellFormed ⟨rightID,node.typ,0,(splitEntries node.entries).2⟩ :=
    part_wellFormed valid rfl (List.drop_sublist _ _) (Nat.two_pow_pos 64)
  refine meets_bind (write_meets ownedBoth.toOwned (by simp) validLeft) ?_
  rintro _ _ ⟨rfl,fits⟩
  have rightSome := right_nonempty large fits rfl
  refine meets_bind (write_meets (ownedBoth.set _).toOwned (by simp) validRight) ?_
  rintro _ _ ⟨rfl,_⟩
  have validTop := @top_wellFormed node.id node _ b leftID rightID _ _ valid parts leftSome rightSome
    ownedBoth.toOwned
  refine meets_mono (write_meets ((ownedBoth.set _).set _).toOwned (by simp) validTop) ?_
  rintro _ _ ⟨rfl,_⟩
  refine ⟨leftID,rightID,_,_,⟨parts,leftSome,rightSome,?_,?_,set_same _ _ _,validLeft,validRight,validTop,?_,?_⟩⟩
  · rw [set_other _ _ leftTop,set_other _ _ (Ne.symm apart)]
    exact set_same _ _ _
  · rw [set_other _ _ rightTop]
    exact set_same _ _ _
  · have same : node.id ::ₘ leftID ::ₘ rightID ::ₘ rest = rightID ::ₘ leftID ::ₘ node.id ::ₘ rest := by
      simp only [← Multiset.singleton_add]
      abel
    exact same ▸ ((ownedBoth.set _).set _).set _
  · intro other member
    have notTop : other ≠ node.id := fun same => owned.apart (same ▸ member)
    have notLeft : other ≠ leftID := fun same => freshLeft (by simp [← same,member])
    have notRight : other ≠ rightID := fun same => freshRight (by simp [← same,member])
    rw [set_other _ _ notTop,set_other _ _ notRight,set_other _ _ notLeft]
    exact (keptRight other (by simp [member])).trans (keptLeft other (by simp [member]))

-- A whole tree under its root page. Only a root leaf may be empty.
structure Rooted (h : Heap) (root : Nat) (leaves : List Node) : Prop where
  tree : ∃ height pages, Subtree h.nodes height root leaves pages ∧ (height = 0 ∨ Filled leaves) ∧ Owned h pages
  sorted : Ascending Entry.key (contents leaves)

structure Planted (lost : Nat) (h : Heap) (root : Nat) (leaves : List Node) : Prop where
  tree : ∃ height pages, Subtree h.nodes height root leaves pages ∧ (height = 0 ∨ Filled leaves) ∧ Counted lost h pages
  sorted : Ascending Entry.key (contents leaves)

theorem Planted.rooted {root : Nat} (planted : Planted lost h root leaves) : Rooted h root leaves := by
  obtain ⟨⟨height,pages,sub,full,counted⟩,sorted⟩ := planted
  exact ⟨⟨height,pages,sub,full,counted.toOwned⟩,sorted⟩

theorem Rooted.planted (rooted : Rooted h root leaves) : ∃ lost, Planted lost h root leaves := by
  obtain ⟨⟨height,pages,sub,full,owned⟩,sorted⟩ := rooted
  obtain ⟨lost,counted⟩ := owned.counted
  exact ⟨lost,⟨height,pages,sub,full,counted⟩,sorted⟩

theorem storeLeaf_meets (owned : Counted lost h {node.id}) (valid : WellFormed node) (typ : node.typ = .leaf) :
    Meets (if nodeFits node then writeNode node else splitRootLeaf heapStore node) h
      (fun _ t => ∃ new, Planted lost t node.id new ∧ contents new = node.entries ∧ (node.next = 0 → Linked new 0))
      Ordinary := by
  cases fits : nodeFits node with
  | true =>
    refine meets_mono (write_meets owned.toOwned (by simp) valid) ?_
    rintro _ _ ⟨rfl,_⟩
    have tree := leaf_tree (set_same h node.id (.ok node)) rfl typ valid
    exact ⟨[node],⟨⟨0,_,tree,.inl rfl,owned.set _⟩,by simpa using valid.sorted⟩,by simp,fun last => ⟨last,trivial⟩⟩
  | false =>
    have ownedTop : Counted lost h (node.id ::ₘ 0) := owned
    have split := @splitRoot_meets _ node 0 h (fun n => n) ownedTop valid fits (fun _ small => small)
    rw [typ] at split
    refine meets_mono split ?_
    rintro _ t ⟨leftID,rightID,left,right,done⟩
    have leftTree := leaf_tree done.first rfl typ done.validLeft
    have rightTree := leaf_tree done.second rfl typ done.validRight
    have kids : Kids (Subtree t.nodes 0) [⟨firstKey left,[],leftID⟩,⟨firstKey right,[],rightID⟩] _ _ :=
      ⟨_,_,_,_,leftTree,by simp,kids_cons rightTree (by simp),rfl,rfl⟩
    have tree := branch_tree kids done.top rfl rfl done.validTop (by simp)
    have held : contents ([⟨leftID,node.typ,rightID,left⟩] ++ [⟨rightID,node.typ,0,right⟩]) = node.entries := by
      simpa using done.parts
    refine ⟨_,⟨⟨1,_,tree,.inr ?_,?_⟩,held ▸ valid.sorted⟩,held,fun _ => ⟨rfl,rfl,trivial⟩⟩
    · simpa [Filled] using And.intro done.leftSome done.rightSome
    · exact done.owned

theorem storeBranch_meets (owned : Counted lost h (node.id ::ₘ inner)) (valid : WellFormed node) (typ : node.typ = .branch)
    (some : node.entries ≠ []) (filled : Filled leaves) (sorted : Ascending Entry.key (contents leaves))
    (kids : Kids (Subtree h.nodes height) node.entries leaves inner) :
    Meets (if nodeFits node then writeNode node else splitRootBranch heapStore node) h
      (fun _ t => Planted lost t node.id leaves) Ordinary := by
  cases fits : nodeFits node with
  | true =>
    refine meets_mono (write_meets owned.toOwned (by simp) valid) ?_
    rintro _ _ ⟨rfl,_⟩
    have below := keeps_kids (keeps_set h (.ok node) owned.apart) kids
    exact ⟨⟨_,_,branch_tree below (set_same h node.id (.ok node)) rfl typ valid some,.inr filled,owned.set _⟩,sorted⟩
  | false =>
    have split := @splitRoot_meets _ node inner h (fun _ => 0) owned valid fits (fun _ _ => Nat.two_pow_pos 64)
    rw [typ] at split
    refine meets_mono split ?_
    rintro _ t ⟨leftID,rightID,left,right,done⟩
    have below := keeps_kids done.kept kids
    rw [← done.parts,kids_append] at below
    obtain ⟨a,p,b,q,leftKids,rightKids,rfl,rfl⟩ := below
    obtain ⟨leftFilled,rightFilled⟩ := filled_append.mp filled
    have leftTree := branch_tree leftKids done.first rfl typ done.validLeft done.leftSome
    have rightTree := branch_tree rightKids done.second rfl typ done.validRight done.rightSome
    have top : Kids (Subtree t.nodes (height+1)) [⟨firstKey left,[],leftID⟩,⟨firstKey right,[],rightID⟩] (a ++ b) _ :=
      ⟨_,_,_,_,leftTree,subtree_firstKey leftTree leftFilled done.first,
        kids_cons rightTree (subtree_firstKey rightTree rightFilled done.second),rfl,rfl⟩
    refine ⟨⟨_,_,branch_tree top done.top rfl rfl done.validTop (by simp),.inr filled,?_⟩,sorted⟩
    have ownedAll := done.owned
    have same : node.id ::ₘ leftID ::ₘ rightID ::ₘ (p + q) = node.id ::ₘ (leftID ::ₘ p + rightID ::ₘ q) := by
      simp only [← Multiset.singleton_add]
      abel
    exact same ▸ ownedAll

theorem putRootBranch_meets (d : Descent h.nodes height id key leaves pages) (filled : Filled leaves)
    (sorted : Ascending Entry.key (contents leaves)) (owned : Counted lost h pages) (deep : height < h.pageCount)
    (keyed : key ≠ []) : Meets (putRootBranch heapStore d.node key value) h
      (fun _ t => ∃ new, Planted lost t id new ∧ Inserted key value leaves new) Ordinary := by
  have framed : Counted lost h (d.middlePages + (id ::ₘ (d.lowerPages + d.upperPages) + 0)) :=
    d.parts 0 ▸ by rwa [add_zero]
  obtain ⟨_,childFound,_,_,childHeld⟩ := subtree_root d.middleTree
  refine meets_ran (d.chosen h) (meets_ran (read_exact framed.toOwned (by simp [childHeld]) childFound) ?_)
  refine meets_ran (a := h.pageCount) (t := h) rfl ?_
  refine meets_bind (putNonRoot_meets d.middleTree childFound (d.filled filled) (d.sorted sorted) framed deep keyed) ?_
  rintro _ _ ⟨_,inserted,regrown⟩
  obtain ⟨_,foundAgain,readAgain⟩ := regrown.root
  refine meets_ran readAgain ?_
  obtain ⟨all,_,full,kids,valid,some,named,typ,ownedAll,_⟩ :=
    adopt_kids d filled sorted inserted regrown foundAgain rfl
  rw [add_zero] at ownedAll
  refine meets_mono (storeBranch_meets ownedAll valid typ some full.filled (full.sorted sorted) kids) ?_
  intro _ last rooted
  exact ⟨all,named ▸ rooted,full⟩

theorem put_counted (planted : Planted lost h root leaves) :
    Meets (BTree.put heapStore root key value) h (fun _ t => key ≠ [] ∧ ∃ new, Planted lost t root new ∧
      contents new = SortedRun.put Entry.key (contents leaves) ⟨key,value,0⟩ ∧ (Linked leaves 0 → Linked new 0))
      Ordinary := by
  obtain ⟨⟨height,_,sub,full,owned⟩,sorted⟩ := planted
  unfold BTree.put
  by_cases empty : key.length = 0
  · rw [if_pos empty]
    exact meets_throw rfl
  rw [if_neg empty]
  have keyed : key ≠ [] := fun none => empty (by simp [none])
  obtain ⟨node,found,_,valid,held⟩ := subtree_root sub
  refine meets_ran (read_exact owned.toOwned held found) ?_
  cases height with
  | zero =>
    obtain ⟨same,read,rfl,typ,_,rfl,rfl⟩ := sub
    obtain rfl : node = same := Except.ok.inj (found.symm.trans read)
    have stored := @storeLeaf_meets _ {node with entries := insertEntry node.entries ⟨key,value,0⟩} h
      owned (insert_wellFormed valid keyed typ) typ
    simp only [typ] at stored ⊢
    refine meets_mono stored ?_
    rintro _ _ ⟨new,rooted,held,linked⟩
    refine ⟨keyed,new,rooted,held.trans ?_,fun chain => linked chain.1⟩
    simpa using insertEntry_exact valid.sorted ⟨key,value,0⟩
  | succ height =>
    have filled : Filled leaves := full.resolve_left (Nat.succ_ne_zero height)
    obtain ⟨d⟩ := descend key sub filled sorted
    obtain rfl : d.node = node := Except.ok.inj (d.found.symm.trans found)
    have deep : height < h.pageCount := Nat.lt_of_succ_lt (Nat.lt_of_lt_of_le (subtree_height sub) owned.count)
    simp only [d.typ]
    refine meets_mono (putRootBranch_meets d filled sorted owned deep keyed) ?_
    rintro _ _ ⟨new,rooted,inserted⟩
    exact ⟨keyed,new,rooted,inserted.entries,inserted.relinked.2 0⟩

theorem put_meets (rooted : Rooted h root leaves) :
    Meets (BTree.put heapStore root key value) h (fun _ t => key ≠ [] ∧ ∃ new, Rooted t root new ∧
      contents new = SortedRun.put Entry.key (contents leaves) ⟨key,value,0⟩ ∧ (Linked leaves 0 → Linked new 0))
      Ordinary := by
  obtain ⟨_,planted⟩ := rooted.planted
  refine meets_mono (put_counted planted) ?_
  rintro _ _ ⟨keyed,new,planted,facts⟩
  exact ⟨keyed,new,planted.rooted,facts⟩

end Kronos.BTreePut
