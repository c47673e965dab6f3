import Kronos.BTreeEntries
import Kronos.PageOwnership

namespace Kronos.BTreeShape
open ByteRange SortedRun BTreeNode BTree BTreeEntries NodeHeap

variable {id height tail : Nat} {node : Node} {pages : Multiset Nat} {leaves left right : List Node}
  {entries : List Entry} {view other : Nat → Except Fault Node}
  {key : Bytes}

def contents (leaves : List Node) : List Entry := leaves.flatMap Node.entries

@[simp] theorem contents_nil : contents [] = [] := rfl
@[simp] theorem contents_cons (leaf : Node) (rest : List Node) :
    contents (leaf :: rest) = leaf.entries ++ contents rest := by simp [contents]
@[simp] theorem contents_append (left right : List Node) :
    contents (left ++ right) = contents left ++ contents right := by simp [contents]

def Filled (leaves : List Node) : Prop := ∀ leaf ∈ leaves, leaf.entries ≠ []

theorem filled_append : Filled (left ++ right) ↔ Filled left ∧ Filled right := by
  simp only [Filled,List.mem_append]
  exact ⟨fun all => ⟨fun leaf member => all leaf (.inl member),fun leaf member => all leaf (.inr member)⟩,
    fun ⟨first,second⟩ leaf member => member.elim (first leaf) (second leaf)⟩

theorem filled_contents (filled : Filled leaves) (some : leaves ≠ []) : contents leaves ≠ [] := by
  cases leaves with
  | nil => exact absurd rfl some
  | cons leaf =>
    intro empty
    exact filled leaf (by simp) (List.append_eq_nil_iff.mp empty).1

-- Sibling links: every leaf names the one after it, the last one names `tail`.
def entrance : List Node → Nat → Nat
  | [],tail => tail
  | leaf :: _,_ => leaf.id

def Linked : List Node → Nat → Prop
  | [],_ => True
  | leaf :: rest,tail => leaf.next = entrance rest tail ∧ Linked rest tail

theorem entrance_append : entrance (left ++ right) tail = entrance left (entrance right tail) := by
  cases left with
  | nil => rfl
  | cons => rfl

theorem linked_append : Linked (left ++ right) tail ↔ Linked left (entrance right tail) ∧ Linked right tail := by
  induction left with
  | nil => exact ⟨fun linked => ⟨trivial,linked⟩,fun linked => linked.2⟩
  | cons _ _ ih => simp only [List.cons_append,Linked,ih,entrance_append,and_assoc]

-- A stretch of leaves is replaced without breaking the chain around it.
def Relinked (old new : List Node) : Prop :=
  (∀ tail, entrance new tail = entrance old tail) ∧ ∀ tail, Linked old tail → Linked new tail

theorem Relinked.refl (leaves : List Node) : Relinked leaves leaves := ⟨fun _ => rfl,fun _ linked => linked⟩

theorem Relinked.within (relinked : Relinked old new) (left right : List Node) :
    Relinked (left ++ old ++ right) (left ++ new ++ right) := by
  obtain ⟨head,chain⟩ := relinked
  refine ⟨fun tail => ?_,fun tail linked => ?_⟩
  · simp only [entrance_append,head]
  · rw [linked_append,linked_append] at linked ⊢
    obtain ⟨⟨first,middle⟩,last⟩ := linked
    exact ⟨⟨by rw [head]; exact first,chain _ middle⟩,last⟩

-- The children of a branch: each separator is the least key under its child.
def Kids (child : Nat → List Node → Multiset Nat → Prop) : List Entry → List Node → Multiset Nat → Prop
  | [],leaves,pages => leaves = [] ∧ pages = 0
  | entry :: rest,leaves,pages => ∃ first firstPages others otherPages,
      child entry.child first firstPages ∧ entry.key = firstKey (contents first) ∧
      Kids child rest others otherPages ∧ leaves = first ++ others ∧ pages = firstPages + otherPages

def Subtree (view : Nat → Except Fault Node) : Nat → Nat → List Node → Multiset Nat → Prop
  | 0,id,leaves,pages => ∃ node, view id = .ok node ∧ node.id = id ∧ node.typ = .leaf ∧ WellFormed node ∧
      leaves = [node] ∧ pages = {id}
  | height+1,id,leaves,pages => ∃ node inner, view id = .ok node ∧ node.id = id ∧ node.typ = .branch ∧
      WellFormed node ∧ node.entries ≠ [] ∧ Kids (Subtree view height) node.entries leaves inner ∧
      pages = id ::ₘ inner

theorem kids_append {child : Nat → List Node → Multiset Nat → Prop} :
    Kids child (first ++ second) leaves pages ↔ ∃ a p b q, Kids child first a p ∧ Kids child second b q ∧
      leaves = a ++ b ∧ pages = p + q := by
  induction first generalizing leaves pages with
  | nil =>
    constructor
    · intro kids
      exact ⟨[],0,leaves,pages,⟨rfl,rfl⟩,kids,rfl,(zero_add _).symm⟩
    · rintro ⟨_,_,_,_,⟨rfl,rfl⟩,kids,rfl,rfl⟩
      simpa using kids
  | cons _ _ ih =>
    constructor
    · rintro ⟨a,p,_,_,sub,key,kids,rfl,rfl⟩
      obtain ⟨c,r,d,s,one,two,rfl,rfl⟩ := ih.mp kids
      exact ⟨a ++ c,p + r,d,s,⟨a,p,c,r,sub,key,one,rfl,rfl⟩,two,(List.append_assoc ..).symm,(add_assoc ..).symm⟩
    · rintro ⟨_,_,d,s,⟨a,p,c,r,sub,key,one,rfl,rfl⟩,two,rfl,rfl⟩
      exact ⟨a,p,c ++ d,r + s,sub,key,ih.mpr ⟨c,r,d,s,one,two,rfl,rfl⟩,List.append_assoc ..,add_assoc ..⟩

theorem kids_cons {child : Nat → List Node → Multiset Nat → Prop} (sub : child entry.child left pages)
    (key : entry.key = firstKey (contents left)) : Kids child [entry] left pages :=
  ⟨left,pages,[],0,sub,key,⟨rfl,rfl⟩,(List.append_nil _).symm,(add_zero _).symm⟩

theorem kids_single {child : Nat → List Node → Multiset Nat → Prop} (kids : Kids child [entry] leaves pages) :
    child entry.child leaves pages ∧ entry.key = firstKey (contents leaves) := by
  obtain ⟨_,_,_,_,sub,key,⟨rfl,rfl⟩,rfl,rfl⟩ := kids
  simpa using And.intro sub key

-- A tree only depends on the pages it is made of.
theorem kids_frame {child next : Nat → List Node → Multiset Nat → Prop}
    (each : ∀ id leaves part, part ≤ pages → child id leaves part → next id leaves part)
    (kids : Kids child entries leaves pages) : Kids next entries leaves pages := by
  induction entries generalizing leaves pages with
  | nil => exact kids
  | cons _ _ ih =>
    obtain ⟨a,p,b,q,sub,key,others,rfl,rfl⟩ := kids
    exact ⟨a,p,b,q,each _ _ _ (Multiset.le_add_right p q) sub,key,
      ih (fun id leaves part fewer => each id leaves part (le_trans fewer (Multiset.le_add_left q p))) others,rfl,rfl⟩

theorem subtree_frame (same : ∀ x ∈ pages, other x = view x) (sub : Subtree view height id leaves pages) :
    Subtree other height id leaves pages := by
  induction height generalizing id leaves pages with
  | zero =>
    obtain ⟨node,found,facts⟩ := sub
    have member : id ∈ pages := by simp [facts.2.2.2.2]
    exact ⟨node,(same id member).trans found,facts⟩
  | succ _ ih =>
    obtain ⟨node,inner,found,named,typ,valid,some,kids,rfl⟩ := sub
    refine ⟨node,inner,(same id (Multiset.mem_cons_self _ _)).trans found,named,typ,valid,some,?_,rfl⟩
    refine kids_frame (fun child part held fewer sub => ih ?_ sub) kids
    intro x member
    exact same x (Multiset.mem_cons_of_mem (Multiset.mem_of_le fewer member))

theorem subtree_root (sub : Subtree view height id leaves pages) :
    ∃ node, view id = .ok node ∧ node.id = id ∧ WellFormed node ∧ id ∈ pages := by
  cases height with
  | zero =>
    obtain ⟨node,found,named,_,valid,_,rfl⟩ := sub
    exact ⟨node,found,named,valid,by simp⟩
  | succ =>
    obtain ⟨node,_,found,named,_,valid,_,_,rfl⟩ := sub
    exact ⟨node,found,named,valid,by simp⟩

theorem kids_children (kids : Kids (Subtree view height) entries leaves pages) : ∀ e ∈ entries, e.child ∈ pages := by
  induction entries generalizing leaves pages with
  | nil => simp
  | cons _ _ ih =>
    obtain ⟨_,_,_,_,sub,_,others,rfl,rfl⟩ := kids
    intro e member
    rcases List.mem_cons.mp member with rfl | later
    · obtain ⟨_,_,_,_,held⟩ := subtree_root sub
      exact Multiset.mem_add.mpr (.inl held)
    · exact Multiset.mem_add.mpr (.inr (ih others e later))

theorem subtree_leaves (sub : Subtree view height id leaves pages) : leaves ≠ [] := by
  induction height generalizing id leaves pages with
  | zero =>
    obtain ⟨node,_,_,_,_,rfl,_⟩ := sub
    simp
  | succ _ ih =>
    obtain ⟨node,_,_,_,_,_,some,kids,_⟩ := sub
    cases shape : node.entries with
    | nil => exact absurd shape some
    | cons =>
      rw [shape] at kids
      obtain ⟨_,_,_,_,first,_,_,rfl,_⟩ := kids
      intro empty
      exact ih first (List.append_eq_nil_iff.mp empty).1

theorem kids_keyed (each : ∀ id leaves pages, Subtree view height id leaves pages → ∀ e ∈ contents leaves, e.key ≠ [])
    (kids : Kids (Subtree view height) entries leaves pages) : ∀ e ∈ contents leaves, e.key ≠ [] := by
  induction entries generalizing leaves pages with
  | nil => obtain ⟨rfl,_⟩ := kids; simp
  | cons _ _ ih =>
    obtain ⟨_,_,_,_,sub,_,others,rfl,rfl⟩ := kids
    intro e member
    rw [contents_append] at member
    rcases List.mem_append.mp member with first | later
    · exact each _ _ _ sub e first
    · exact ih others e later

theorem subtree_keyed (sub : Subtree view height id leaves pages) : ∀ e ∈ contents leaves, e.key ≠ [] := by
  induction height generalizing id leaves pages with
  | zero =>
    obtain ⟨_,_,_,_,valid,rfl,_⟩ := sub
    simpa using valid.keyed
  | succ _ ih =>
    obtain ⟨_,_,_,_,_,_,_,kids,_⟩ := sub
    exact kids_keyed (fun _ _ _ => ih) kids

theorem subtree_height (sub : Subtree view height id leaves pages) : height < pages.card := by
  induction height generalizing id leaves pages with
  | zero =>
    obtain ⟨_,_,_,_,_,_,rfl⟩ := sub
    simp
  | succ _ ih =>
    obtain ⟨node,_,_,_,_,_,some,kids,rfl⟩ := sub
    cases shape : node.entries with
    | nil => exact absurd shape some
    | cons =>
      rw [shape] at kids
      obtain ⟨_,_,_,_,first,_,_,_,rfl⟩ := kids
      have below := ih first
      simp only [Multiset.card_cons,Multiset.card_add]
      omega

theorem firstKey_append (some : first ≠ []) : firstKey (first ++ second) = firstKey first := by
  cases first with
  | nil => exact absurd rfl some
  | cons => rfl

theorem firstKey_le (sorted : Ascending Entry.key run) : ∀ e ∈ run, firstKey run ≤ e.key := by
  cases run with
  | nil => simp
  | cons =>
    intro e member
    rcases List.mem_cons.mp member with rfl | later
    · exact le_refl _
    · exact le_of_lt ((List.pairwise_cons.mp sorted).1 e later)

theorem firstKey_mem (some : run ≠ []) : ∃ e ∈ run, e.key = firstKey run := by
  cases run with
  | nil => exact absurd rfl some
  | cons entry => exact ⟨entry,by simp,rfl⟩

theorem subtree_firstKey (sub : Subtree view height id leaves pages) (filled : Filled leaves)
    (found : view id = .ok node) : firstKey node.entries = firstKey (contents leaves) := by
  cases height with
  | zero =>
    obtain ⟨_,read,_,_,_,rfl,_⟩ := sub
    rw [found,Except.ok.injEq] at read
    simp [read]
  | succ =>
    obtain ⟨_,_,read,_,_,_,some,kids,_⟩ := sub
    rw [found,Except.ok.injEq] at read
    subst read
    cases shape : node.entries with
    | nil => exact absurd shape some
    | cons =>
      rw [shape] at kids
      obtain ⟨_,_,_,_,first,key,_,rfl,_⟩ := kids
      rw [contents_append,firstKey_append (filled_contents (filled_append.mp filled).1 (subtree_leaves first))]
      exact key

theorem ascending_append : Ascending Entry.key (first ++ second) ↔
    Ascending Entry.key first ∧ Ascending Entry.key second ∧ ∀ a ∈ first, ∀ b ∈ second, a.key < b.key :=
  List.pairwise_append

theorem kids_above (kids : Kids (Subtree view height) entries leaves pages)
    (sorted : Ascending Entry.key (contents leaves)) (above : ∀ e ∈ entries, key < e.key) :
    ∀ e ∈ contents leaves, key < e.key := by
  induction entries generalizing leaves pages with
  | nil => obtain ⟨rfl,_⟩ := kids; simp
  | cons entry _ ih =>
    obtain ⟨_,_,_,_,_,separator,others,rfl,rfl⟩ := kids
    rw [contents_append] at sorted ⊢
    obtain ⟨first,second,_⟩ := ascending_append.mp sorted
    intro e member
    rcases List.mem_append.mp member with here | later
    · have least : entry.key ≤ e.key := separator ▸ firstKey_le first e here
      exact lt_of_lt_of_le (above entry (by simp)) least
    · exact ih others second (fun e inside => above e (List.mem_cons_of_mem _ inside)) e later

theorem kids_separators (kids : Kids (Subtree view height) entries leaves pages) (filled : Filled leaves) :
    ∀ e ∈ entries, ∃ least ∈ contents leaves, least.key = e.key := by
  induction entries generalizing leaves pages with
  | nil => simp
  | cons _ _ ih =>
    obtain ⟨_,_,_,_,sub,separator,others,rfl,rfl⟩ := kids
    obtain ⟨firstFilled,restFilled⟩ := filled_append.mp filled
    intro e member
    rcases List.mem_cons.mp member with rfl | later
    · obtain ⟨least,held,same⟩ := firstKey_mem (filled_contents firstFilled (subtree_leaves sub))
      exact ⟨least,by simp [held],same.trans separator.symm⟩
    · obtain ⟨least,held,same⟩ := ih others restFilled e later
      exact ⟨least,by simp [held],same⟩

theorem kids_sorted (kids : Kids (Subtree view height) entries leaves pages) (filled : Filled leaves)
    (sorted : Ascending Entry.key (contents leaves)) : Ascending Entry.key entries := by
  induction entries generalizing leaves pages with
  | nil => exact List.Pairwise.nil
  | cons _ _ ih =>
    obtain ⟨_,_,_,_,sub,separator,others,rfl,rfl⟩ := kids
    obtain ⟨firstFilled,restFilled⟩ := filled_append.mp filled
    rw [contents_append] at sorted
    obtain ⟨_,second,across⟩ := ascending_append.mp sorted
    refine List.pairwise_cons.mpr ⟨fun e member => ?_,ih others restFilled second⟩
    obtain ⟨least,held,same⟩ := firstKey_mem (filled_contents firstFilled (subtree_leaves sub))
    obtain ⟨under,inside,equal⟩ := kids_separators others restFilled e member
    rw [separator,← same,← equal]
    exact across least held under inside

theorem kids_wellFormed (kids : Kids (Subtree view height) entries leaves pages) (filled : Filled leaves)
    (sorted : Ascending Entry.key (contents leaves)) (owned : ∀ x ∈ pages, x ≠ 0 ∧ x < 2 ^ 64)
    (next : node.next < 2 ^ 64) (typ : node.typ = .branch) (shape : node.entries = entries) : WellFormed node where
  typed := by rw [typ]; decide
  next := next
  sorted := shape ▸ kids_sorted kids filled sorted
  keyed := by
    intro e member
    obtain ⟨least,held,same⟩ := kids_separators kids filled e (shape ▸ member)
    exact same ▸ kids_keyed (fun _ _ _ => subtree_keyed) kids least held
  children := fun e member => (owned _ (kids_children kids e (shape ▸ member))).2
  linked := fun _ e member => (owned _ (kids_children kids e (shape ▸ member))).1

-- One step down: the child that is followed and what lies on either side.
structure Descent (view : Nat → Except Fault Node) (height id : Nat) (key : Bytes) (leaves : List Node)
    (pages : Multiset Nat) where
  node : Node
  before : List Entry
  entry : Entry
  after : List Entry
  lower : List Node
  middle : List Node
  upper : List Node
  lowerPages : Multiset Nat
  middlePages : Multiset Nat
  upperPages : Multiset Nat
  found : view id = .ok node
  named : node.id = id
  typ : node.typ = .branch
  valid : WellFormed node
  shape : node.entries = before ++ entry :: after
  index : childIndexFor node.entries key = before.length
  child : (childFor node key : EStateM Fault Heap Nat) = pure entry.child
  lowerKids : Kids (Subtree view height) before lower lowerPages
  middleTree : Subtree view height entry.child middle middlePages
  separator : entry.key = firstKey (contents middle)
  upperKids : Kids (Subtree view height) after upper upperPages
  split : leaves = lower ++ middle ++ upper
  used : pages = id ::ₘ (lowerPages + middlePages + upperPages)
  below : ∀ e ∈ contents lower, e.key < key
  above : ∀ e ∈ contents upper, key < e.key

theorem descend (key : Bytes) (sub : Subtree view (height+1) id leaves pages) (filled : Filled leaves)
    (sorted : Ascending Entry.key (contents leaves)) : Nonempty (Descent view height id key leaves pages) := by
  obtain ⟨node,_,found,named,typ,valid,some,kids,rfl⟩ := sub
  obtain ⟨before,entry,after,shape,index,child,reached,later⟩ :=
    @child_place node.id Heap node.entries valid.sorted some key
  rw [shape,kids_append] at kids
  obtain ⟨lower,lowerPages,_,_,lowerKids,⟨middle,middlePages,upper,upperPages,middleTree,separator,upperKids,rfl,rfl⟩,
    rfl,rfl⟩ := kids
  rw [contents_append,contents_append] at sorted
  obtain ⟨_,second,across⟩ := ascending_append.mp sorted
  obtain ⟨middleFilled,_⟩ := filled_append.mp (filled_append.mp filled).2
  obtain ⟨least,held,same⟩ := firstKey_mem (filled_contents middleFilled (subtree_leaves middleTree))
  refine ⟨⟨node,before,entry,after,lower,middle,upper,lowerPages,middlePages,upperPages,found,named,typ,valid,shape,
    index,?_,lowerKids,middleTree,separator,upperKids,(List.append_assoc ..).symm,by rw [add_assoc],?_,?_⟩⟩
  · have chosen := child node.next
    rwa [← typ] at chosen
  · intro e member
    rcases reached with rfl | under
    · obtain ⟨rfl,_⟩ := lowerKids
      simp at member
    · have less : e.key < least.key := across e member least (by simp [held])
      rw [same,← separator] at less
      exact lt_of_lt_of_le less under
  · exact kids_above upperKids (ascending_append.mp second).2.1 later

section
variable (d : Descent view height id key leaves pages)

theorem Descent.filled (filled : Filled leaves) : Filled d.middle :=
  (filled_append.mp (filled_append.mp (d.split ▸ filled)).1).2

theorem Descent.sorted (sorted : Ascending Entry.key (contents leaves)) : Ascending Entry.key (contents d.middle) := by
  rw [d.split,contents_append,contents_append] at sorted
  exact (ascending_append.mp (ascending_append.mp sorted).1).2.1

theorem Descent.chosen (h : Heap) : entryAt d.node.entries (childIndexFor d.node.entries key) h = .ok d.entry h := by
  rw [d.index,d.shape]
  exact congrFun (entryAt_place d.before d.entry d.after) h

theorem Descent.parts (rest : Multiset Nat) :
    pages + rest = d.middlePages + (id ::ₘ (d.lowerPages + d.upperPages) + rest) :=
  calc pages + rest = id ::ₘ (d.lowerPages + d.middlePages + d.upperPages) + rest := congrArg (· + rest) d.used
    _ = _ := by simp only [← Multiset.singleton_add]; abel

end

end Kronos.BTreeShape
