import Kronos.BTreeRuns

namespace Kronos.BTreeChain
open ByteRange SortedRun BTreeNode BTree BTreeShape BTreePut BTreeDelete BTreeRead BTreeRuns PageStore
  BTreePager NodeHeap Effect

def leafFor (root : Nat) (key : Bytes) (p : Pager) : Option Node :=
  match firstLeafAt pagerStore p.header.pageCount root key p with
  | .ok leaf _ => some leaf
  | .error _ _ => none

-- A Delete takes the only key of a leaf page other than the root page only if
-- that leaf is the leftmost one and another leaf follows it.
def Gentle (root : Nat) (_ : List Operation) (p : Pager) : Operation → Prop
  | .put _ _ => True
  | .delete key => ∀ leaf, leafFor root key p = some leaf → leaf.entries.map Entry.key = [key] → leaf.id ≠ root →
      leafFor root [] p = some leaf ∧ leaf.next ≠ 0

variable {p q : Pager} {h t : Heap} {root height : Nat} {key value : Bytes} {leaves before after : List Node}
  {leaf : Node} {ops : List Operation}

theorem cut_unique {first last : List Node} {other : Node} (same : before ++ leaf :: after = first ++ other :: last)
    (single : Single key leaf) (below : ∀ e ∈ contents first, e.key < key) (above : ∀ e ∈ contents last, key < e.key) :
    before = first ∧ leaf = other ∧ after = last := by
  obtain ⟨entry,shape,equal⟩ := single
  have held : entry ∈ leaf.entries := by simp [shape]
  rcases List.append_eq_append_iff.mp same with ⟨middle,rfl,rest⟩ | ⟨middle,rfl,rest⟩
  · cases middle with
    | nil =>
      obtain ⟨rfl,rfl⟩ := List.cons.inj rest
      exact ⟨by simp,rfl,rfl⟩
    | cons =>
      obtain ⟨rfl,_⟩ := List.cons.inj rest
      have less := below entry (by simp [held])
      exact absurd equal (ne_of_lt less)
  · cases middle with
    | nil =>
      obtain ⟨rfl,rfl⟩ := List.cons.inj rest
      exact ⟨by simp,rfl,rfl⟩
    | cons =>
      obtain ⟨rfl,rfl⟩ := List.cons.inj rest
      have more := above entry (by simp [held])
      exact absurd equal.symm (ne_of_lt more)

theorem descent_exact (tracks : Tracks p h) (rooted : Rooted h root leaves) (key : Bytes) :
    ∃ before leaf after q, leaves = before ++ leaf :: after ∧
      firstLeafAt pagerStore p.header.pageCount root key p = .ok leaf q ∧ Tracks q h ∧
      (∀ e ∈ contents before, e.key < key) ∧ ∀ e ∈ contents after, key < e.key := by
  obtain ⟨⟨height,_,sub,full,owned⟩,sorted⟩ := rooted
  have deep : height < h.pageCount := Nat.lt_of_lt_of_le (subtree_height sub) owned.count
  obtain ⟨before,leaf,after,shape,ran,below,above⟩ := @firstLeafAt_exact _ _ _ _ _ _ key sub full sorted owned deep
  have followed := firstLeafAt_simulates h.pageCount root key p h tracks
  rw [ran] at followed
  obtain ⟨q,low,tracked⟩ := followed
  exact ⟨before,leaf,after,q,shape,by rw [tracks.count]; exact low,tracked,below,above⟩

theorem leafFor_exact (tracks : Tracks p h) (rooted : Rooted h root leaves) (key : Bytes) :
    ∃ before leaf after, leaves = before ++ leaf :: after ∧ leafFor root key p = some leaf ∧
      (∀ e ∈ contents before, e.key < key) ∧ ∀ e ∈ contents after, key < e.key := by
  obtain ⟨before,leaf,after,_,shape,ran,_,below,above⟩ := descent_exact tracks rooted key
  exact ⟨before,leaf,after,shape,by simp only [leafFor,ran],below,above⟩

theorem root_leaf (rooted : Rooted h root leaves) (member : leaf ∈ leaves) (top : leaf.id = root) : leaves = [leaf] := by
  obtain ⟨⟨height,_,sub,_,owned⟩,_⟩ := rooted
  cases height with
  | zero =>
    obtain ⟨_,_,_,_,_,rfl,_⟩ := sub
    rw [List.mem_singleton.mp member]
  | succ =>
    obtain ⟨_,_,_,_,_,_,_,kids,rfl⟩ := sub
    have inside := (kids_leaves (fun _ _ _ _ sub => subtree_leaf sub) kids leaf member).2.2
    rw [top] at inside
    exact absurd inside owned.apart

theorem leftmost_leaf (tracks : Tracks p h) (rooted : Rooted h root leaves) (least : leafFor root [] p = some leaf) :
    ∃ after, leaves = leaf :: after := by
  obtain ⟨before,_,after,shape,same,below,_⟩ := leafFor_exact tracks rooted []
  cases least.symm.trans same
  cases before with
  | nil => exact ⟨after,shape⟩
  | cons head =>
    obtain ⟨⟨_,_,sub,full,_⟩,_⟩ := rooted
    rcases full with rfl | filled
    · obtain ⟨_,_,_,_,_,alone,_⟩ := sub
      have size := congrArg List.length (shape.symm.trans alone)
      simp at size
    · obtain ⟨e,member,_⟩ := firstKey_mem (filled head (by simp [shape]))
      have less := below e (by simp [member])
      exact absurd less (List.not_lt_nil _)

theorem gentle_cut (tracks : Tracks p h) (rooted : Rooted h root (before ++ leaf :: after)) (single : Single key leaf)
    (gentle : Gentle root ops p (.delete key)) : before = [] := by
  obtain ⟨_,_,_,shape,same,below,above⟩ := leafFor_exact tracks rooted key
  obtain ⟨rfl,rfl,rfl⟩ := cut_unique shape single below above
  by_cases top : leaf.id = root
  · have alone := congrArg List.length (root_leaf rooted (by simp) top)
    simp only [List.length_append,List.length_cons,List.length_nil] at alone
    exact List.length_eq_zero_iff.mp (by omega)
  · have keys : leaf.entries.map Entry.key = [key] := by
      obtain ⟨_,only,equal⟩ := single
      simp [only,equal]
    obtain ⟨_,front⟩ := leftmost_leaf tracks rooted (gentle leaf same keys top).1
    exact (@cut_unique _ [] _ _ _ _ _ front.symm single below above).1.symm

theorem gentle_delete (tracks : Tracks p h) (rooted : Rooted h root leaves) (linked : Linked leaves 0)
    (gentle : Gentle root ops p (.delete key)) (removed : Removed h root key leaves t) :
    ∃ new, Rooted t root new ∧ contents new = SortedRun.drop Entry.key (contents leaves) key ∧ Linked new 0 := by
  cases removed with
  | @rooted _ new rootedNew erased same chain =>
    refine ⟨new,rootedNew,same.trans erased.entries,chain ?_⟩
    rcases erased.change with relinked | ⟨_,leaf,_,rfl,rfl,single⟩
    · exact relinked.2 0 linked
    · obtain rfl := gentle_cut tracks rooted single gentle
      exact linked.2
  | @hollow _ leaf _ found typ alone single =>
    subst alone
    obtain ⟨_,only,_,shape,same,below,above⟩ := leafFor_exact tracks rooted key
    obtain ⟨_,rfl,_⟩ := @cut_unique _ [] _ _ _ _ _ shape single below above
    have top : leaf.id ≠ root := by
      intro equal
      obtain ⟨⟨_,_,sub,_,_⟩,_⟩ := rooted
      obtain ⟨leafTyp,leafFound,_⟩ := subtree_leaf sub leaf (by simp)
      rw [equal,found,Except.ok.injEq] at leafFound
      rw [leafFound,leafTyp] at typ
      cases typ
    have keys : leaf.entries.map Entry.key = [key] := by
      obtain ⟨_,only,equal⟩ := single
      simp [only,equal]
    exact absurd linked.1 (gentle leaf same keys top).2

structure Chained (h : Heap) (root : Nat) (ops : List Operation) (leaves : List Node) : Prop where
  holds : Holds h root ops leaves
  linked : Linked leaves 0

theorem gentle_step (tracks : Tracks p h) (chained : Chained h root ops leaves) (gentle : Gentle root ops p op)
    (ran : perform pagerStore root op p = .ok () q) : ∃ t new, Tracks q t ∧ Chained t root (ops ++ [op]) new := by
  obtain ⟨holds,linked⟩ := chained
  cases op with
  | put key value =>
    obtain ⟨t,after,_,new,rooted,entries,chain⟩ := simulates_ok (put_simulates root key value) tracks ran
      (put_meets holds.rooted) ordinary_tracked
    exact ⟨t,new,after,put_holds holds rooted entries,chain linked⟩
  | delete key =>
    obtain ⟨t,after,_,removed⟩ := simulates_ok (delete_simulates root key) tracks ran
      (delete_meets holds.rooted) ordinary_tracked
    obtain ⟨new,rooted,entries,chain⟩ := gentle_delete tracks holds.rooted linked gentle removed
    exact ⟨t,new,after,delete_holds holds rooted entries,chain⟩

theorem gentle_steps (steps : Steps root (Gentle root) p ops q) (tracks : Tracks p h)
    (chained : Chained h root [] leaves) : ∃ t new, Tracks q t ∧ Chained t root ops new := by
  induction steps with
  | nil => exact ⟨h,leaves,tracks,chained⟩
  | snoc _ gentle ran ih =>
    obtain ⟨_,_,tracked,now⟩ := ih
    exact gentle_step tracked now gentle ran

theorem gentle_reached (reached : Reached root (Gentle root) ops p) :
    ∃ h leaves, Tracks p h ∧ Chained h root ops leaves := by
  obtain ⟨_,_,_,opened,create,steps⟩ := reached
  obtain ⟨_,_,tracks,holds,linked⟩ := created opened create
  exact gentle_steps steps tracks ⟨holds,linked⟩

structure Listing (ops : List Operation) (start : Bytes) (stop : Option Bytes) (yielded : List (Bytes × Bytes)) : Prop where
  ascending : yielded.Pairwise (fun a b => a.1 < b.1)
  exact : ∀ key value, (key,value) ∈ yielded ↔
    lastValue ops key = some value ∧ start ≤ key ∧ ∀ bound, stop = some bound → key < bound

theorem short_exact (stop : Option Bytes) (entry : Entry) :
    short stop entry = true ↔ ∀ bound, stop = some bound → entry.key < bound := by
  cases stop with
  | none | some => simp [short]

theorem range_listing (holds : Holds h root ops leaves) (start : Bytes) (stop : Option Bytes) :
    Listing ops start stop ((range start stop (contents leaves)).map pair) where
  ascending := by
    rw [List.pairwise_map]
    exact holds.rooted.sorted.filter _
  exact := by
    intro key value
    rw [← holds.exact key]
    simp only [List.mem_map,range,List.mem_filter,Bool.and_eq_true,decide_eq_true_eq,short_exact,pair,Prod.mk.injEq]
    constructor
    · rintro ⟨entry,⟨member,above,below⟩,rfl,rfl⟩
      rw [(find_exact Entry.key holds.rooted.sorted entry.key entry).mpr ⟨member,rfl⟩]
      exact ⟨rfl,above,below⟩
    · rintro ⟨found,above,below⟩
      obtain ⟨entry,held,rfl⟩ := Option.map_eq_some_iff.mp found
      obtain ⟨member,rfl⟩ := (find_exact Entry.key holds.rooted.sorted key entry).mp held
      exact ⟨entry,⟨member,above,below⟩,rfl,rfl⟩

-- Every scan yields the live entries of its range and ends without an error.
def ExactScans (root : Nat) (ops : List Operation) (p : Pager) : Prop :=
  ∀ start stop, ∃ first q yielded turns, scan pagerStore root start stop p = .ok first q ∧ Listing ops start stop yielded ∧
    ∀ count, turns ≤ count → ∃ last r, drive pagerStore count first q = .ok (yielded,last) r ∧
      last.valid = false ∧ last.err = none

theorem gentle_scans (reached : Reached root (Gentle root) ops p) : ExactScans root ops p := by
  intro start stop
  obtain ⟨h,_,tracks,holds,linked⟩ := gentle_reached reached
  obtain ⟨first,scanned,turns,driven⟩ := scan_exact holds.rooted linked start stop
  have followed := scan_simulates root start stop p h tracks
  rw [scanned] at followed
  obtain ⟨q,low,tracksFirst⟩ := followed
  refine ⟨first,q,_,turns,low,range_listing holds start stop,fun count enough => ?_⟩
  obtain ⟨last,ran,ended,clean⟩ := driven count enough
  have further := drive_simulates count first q h tracksFirst
  rw [ran] at further
  obtain ⟨r,same,_⟩ := further
  exact ⟨last,r,same,ended,clean⟩

-- Range scans: along the sibling chain every live entry of the range comes once,
-- in order, and the iterator ends without an error.
theorem scan_yields_live_entries (reached : Reached root (Gentle root) ops p) (start : Bytes) (stop : Option Bytes) :
    ∃ first q yielded turns, scan pagerStore root start stop p = .ok first q ∧ Listing ops start stop yielded ∧
      ∀ count, turns ≤ count → ∃ last r, drive pagerStore count first q = .ok (yielded,last) r ∧
        last.valid = false ∧ last.err = none :=
  gentle_scans reached start stop

theorem gentle_leftmost (tracks : Tracks p h) (found : answer (firstLeafAt heapStore h.pageCount root key h) = .ok leaf)
    (least : answer (firstLeafAt heapStore h.pageCount root [] h) = .ok leaf) (more : leaf.next ≠ 0) :
    Gentle root ops p (.delete key) := by
  obtain ⟨_,_,low,_⟩ := follows_ok (firstLeafAt_simulates h.pageCount root key) tracks found
  obtain ⟨_,_,left,_⟩ := follows_ok (firstLeafAt_simulates h.pageCount root []) tracks least
  intro other same _ _
  simp only [leafFor,tracks.count,low,Option.some.injEq] at same
  subst same
  exact ⟨by simp only [leafFor,tracks.count,left],more⟩

-- Runs over long keys recurse as deep as a key is long.
set_option maxRecDepth 20000

-- Keys of two thousand bytes: a page holds two of them, so three make two leaves.
def wide (byte : UInt8) : Bytes := byte :: List.replicate 1999 0

def threeWide : List Operation := [.put (wide 1) [],.put (wide 2) [],.put (wide 3) []]

theorem scan_after_leftmost_leaf_removed : ∃ p first q yielded turns,
    Reached 1 (Gentle 1) (threeWide ++ [.delete (wide 1)]) p ∧ scan pagerStore 1 [] none p = .ok first q ∧
    Listing (threeWide ++ [.delete (wide 1)]) [] none yielded ∧ ∀ count, turns ≤ count →
      ∃ last r, drive pagerStore count first q = .ok (yielded,last) r ∧ last.valid = false ∧ last.err = none := by
  have puts : ∀ done, ∀ s : Pager, ∀ op ∈ threeWide, Gentle 1 done s op := by
    intro done s op member
    simp only [threeWide,List.mem_cons,List.not_mem_nil,or_false] at member
    rcases member with rfl | rfl | rfl <;> trivial
  obtain ⟨h,_,ran,tracks,⟨file,opened,made,open_,create,steps⟩⟩ :=
    @blank_reached 1 threeWide (Gentle 1) (by decide +kernel) puts
  have found : answer ((history heapStore threeWide >>= fun root => do
      let depth ← heapStore.pageCount
      firstLeafAt heapStore depth root (wide 1)) blankHeap) = .ok ⟨2,.leaf,3,[⟨wide 1,[],0⟩]⟩ := by decide +kernel
  have least : answer ((history heapStore threeWide >>= fun root => do
      let depth ← heapStore.pageCount
      firstLeafAt heapStore depth root []) blankHeap) = .ok ⟨2,.leaf,3,[⟨wide 1,[],0⟩]⟩ := by decide +kernel
  have deleted : answer ((history heapStore threeWide >>= fun root =>
      BTree.delete heapStore root (wide 1)) blankHeap) = .ok () := by decide +kernel
  rw [bind_ran ran,bind_ran (count_exact h)] at found least
  rw [bind_ran ran] at deleted
  obtain ⟨q,_,low,_⟩ := follows_ok (delete_simulates 1 (wide 1)) tracks deleted
  have reached : Reached 1 (Gentle 1) (threeWide ++ [.delete (wide 1)]) q :=
    ⟨file,opened,made,open_,create,.snoc steps (gentle_leftmost tracks found least (by decide)) low⟩
  obtain ⟨first,r,yielded,turns,scanned,listing,driven⟩ := scan_yields_live_entries reached [] none
  exact ⟨q,first,r,yielded,turns,reached,scanned,listing,driven⟩

def staleOps : List Operation := threeWide ++ [.delete (wide 3),.delete (wide 2)]

-- The second leaf leaves the tree but not the first leaf's link.
theorem scan_yields_deleted_key : ∃ p first q last r, Reached 1 Always staleOps p ∧ lastValue staleOps (wide 2) = none ∧
    scan pagerStore 1 [] none p = .ok first q ∧
    drive pagerStore 3 first q = .ok ([(wide 1,[]),(wide 2,[])],last) r := by
  obtain ⟨_,p,ran,tracks,reached⟩ := @blank_reached 1 staleOps Always (by decide +kernel) (fun _ _ _ _ => trivial)
  have yielded : answer ((history heapStore staleOps >>= fun root => do
      let first ← scan heapStore root [] none
      let driven ← drive heapStore 3 first
      return driven.1) blankHeap) = .ok [(wide 1,[]),(wide 2,[])] := by decide +kernel
  rw [bind_ran ran] at yielded
  obtain ⟨_,done⟩ := answer_ok yielded
  obtain ⟨first,_,scanned,rest⟩ := bind_ok.mp done
  obtain ⟨⟨_,last⟩,_,driven,returned⟩ := bind_ok.mp rest
  cases returned
  obtain ⟨q,_,low,same,tracksFirst⟩ := follows_ok (scan_simulates 1 [] none) tracks (by rw [scanned]; rfl)
  rw [scanned] at same
  cases same
  obtain ⟨r,_,drove,_⟩ := follows_ok (drive_simulates 3 first) tracksFirst (by rw [driven]; rfl)
  exact ⟨p,first,q,last,r,reached,by decide +kernel,low,drove⟩

end Kronos.BTreeChain
