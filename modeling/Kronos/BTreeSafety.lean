import Kronos.BTreeChain

namespace Kronos.BTreeSafety
open ByteRange SortedRun BTreeNode BTree BTreeShape BTreePut BTreeDelete BTreeRead BTreeRuns BTreeChain
  PageStore BTreePager NodeHeap Effect

inductive Below (root : Nat) (p : Pager) : Nat → Prop where
  | root : Below root p root | child {id : Nat} {node : Node} {entry : Entry} {q : Pager} : Below root p id →
      BTreePager.readNode id p = .ok node q → node.typ = .branch → entry ∈ node.entries → Below root p entry.child

-- The failures the tree must not have: a panic, a runaway descent, a branch
-- page without entries.
def Fault.broken : Fault → Bool
  | .indexOutOfRange | .stackOverflow | .noEntries _ => true
  | _ => false

def Unbroken (result : EStateM.Result Fault σ α) : Prop :=
  ∀ fault s, result = .error fault s → Fault.broken fault = false

-- A scan descends and then walks along the sibling links. The walk itself
-- cannot fail; it is judged for any number of turns, since the tree alone does
-- not say how long the chain is.
structure Safe (root : Nat) (p : Pager) : Prop where
  branches : ∀ id node q, Below root p id → BTreePager.readNode id p = .ok node q → node.typ = .branch → node.entries ≠ []
  get : ∀ key, Unbroken (BTree.get pagerStore root key p)
  put : ∀ key value, Unbroken (BTree.put pagerStore root key value p)
  delete : ∀ key, Unbroken (BTree.delete pagerStore root key p)
  descent : ∀ start, Unbroken (firstLeafAt pagerStore p.header.pageCount root start p)
  scan : ∀ start stop fault s, BTree.scan pagerStore root start stop p = .error fault s → fault = .stackOverflow
  walk : ∀ turns it fault s, skipEmpty pagerStore turns it p = .error fault s → fault = .stackOverflow

def BranchRoot (root : Nat) (p : Pager) : Prop :=
  ∃ node q, BTreePager.readNode root p = .ok node q ∧ node.typ = .branch

def LastLive (ops : List Operation) (key : Bytes) : Prop :=
  lastValue ops key ≠ none ∧ ∀ other, lastValue ops other ≠ none → other = key

-- A Delete does not take the last live key from under a root that is a branch.
def Sparing (root : Nat) (ops : List Operation) (p : Pager) : Operation → Prop
  | .put _ _ => True
  | .delete key => ¬ (BranchRoot root p ∧ LastLive ops key)

variable {p q : Pager} {h t : Heap} {root id height : Nat} {key value : Bytes} {leaves : List Node} {leaf node : Node}
  {ops : List Operation} {pages : Multiset Nat} {fault : Fault}

theorem ordinary_unbroken (ordinary : NodeHeap.Fault.ordinary fault = true) : Fault.broken fault = false := by
  cases fault <;> first | rfl | cases ordinary

-- A page that does not decode is reported, never a panic.
theorem decodeEntries_ordinary (refused : decodeEntries id typ page left index done = .error fault) :
    NodeHeap.Fault.ordinary fault = true := by
  induction left generalizing index done with
  | zero => cases refused
  | succ _ ih =>
    unfold decodeEntries at refused
    split at refused
    · rename_i entryFault failed
      cases refused
      simp only [decodeEntry] at failed
      split at failed
      · cases failed; rfl
      · split at failed
        · cases failed; rfl
        · split at failed <;> cases failed; rfl
    · split at refused
      · cases refused; rfl
      · split at refused
        · cases refused; rfl
        · exact ih refused

theorem decodeNode_ordinary (refused : decodeNode id page = .error fault) : NodeHeap.Fault.ordinary fault = true := by
  simp only [decodeNode] at refused
  split at refused
  · cases refused; rfl
  · split at refused
    · rename_i typeFault failed
      cases refused
      simp only [decodeType] at failed
      split at failed
      · cases failed
      · split at failed <;> cases failed; rfl
    · split at refused
      · cases refused; rfl
      · split at refused
        · rename_i entryFault failed
          cases refused
          exact decodeEntries_ordinary failed
        · cases refused

theorem read_ordinary (tracks : Tracks p h) (nonzero : id ≠ 0) : (∃ node, BTreePager.readNode id p = .ok node p) ∨
      ∃ fault, BTreePager.readNode id p = .error fault p ∧ NodeHeap.Fault.ordinary fault = true := by
  rcases read_agrees tracks nonzero with ⟨node,low,_⟩ | ⟨fault,low,high⟩
  · exact .inl ⟨node,low⟩
  · refine .inr ⟨fault,low,?_⟩
    by_cases outside : id ≥ h.pageCount
    · rw [NodeHeap.readNode,if_pos outside] at high
      cases high
      rfl
    · obtain ⟨page,held,_⟩ := page_exact tracks (Nat.lt_of_not_le outside)
      rw [NodeHeap.readNode,if_neg outside,if_neg nonzero,tracks.view id page nonzero (Nat.lt_of_not_le outside) held] at high
      cases decoded : decodeNode id page with
      | ok => rw [decoded] at high; cases high
      | error =>
        rw [decoded] at high
        cases high
        exact decodeNode_ordinary decoded

theorem walk_safe (tracks : Tracks p h) (turns : Nat) (it : Iterator)
    (failed : skipEmpty pagerStore turns it p = .error fault s) : fault = .stackOverflow := by
  induction turns generalizing it with
  | zero => cases failed; rfl
  | succ _ ih =>
    unfold skipEmpty at failed
    by_cases more : it.err = none ∧ it.node.typ = .leaf ∧ it.index ≥ it.node.entries.length ∧ it.node.next ≠ 0
    · rw [if_pos more] at failed
      rcases read_ordinary tracks more.2.2.2 with ⟨node,read⟩ | ⟨other,read,ordinary⟩
      · have attempted : attempt (pagerStore.readNode it.node.next) p = .ok (.ok node) p := by
          change attempt (BTreePager.readNode it.node.next) p = _
          simp only [attempt,read]
        simp only [bind,EStateM.bind,attempted] at failed
        exact ih _ failed
      · have attempted : attempt (pagerStore.readNode it.node.next) p = .ok (.error other) p := by
          change attempt (BTreePager.readNode it.node.next) p = _
          simp only [attempt,read]
        have reported : other ≠ .indexOutOfRange := by
          rintro rfl
          cases ordinary
        simp only [bind,EStateM.bind,attempted,if_neg reported] at failed
        cases failed
    · rw [if_neg more] at failed
      cases failed

theorem kids_child {view : Nat → Except Fault Node} (kids : Kids (Subtree view height) entries leaves pages)
    (member : entry ∈ entries) : ∃ part held, Subtree view height entry.child part held ∧ held ≤ pages := by
  obtain ⟨_,_,rfl⟩ := List.append_of_mem member
  obtain ⟨_,p,_,_,_,⟨part,held,_,q,sub,_,_,_,rfl⟩,_,rfl⟩ := kids_append.mp kids
  exact ⟨part,held,sub,le_trans (Multiset.le_add_right held q) (Multiset.le_add_left _ p)⟩

theorem read_tree (tracks : Tracks p h) (owned : Owned h pages) (member : id ∈ pages)
    (read : BTreePager.readNode id p = .ok node q) : h.nodes id = .ok node := by
  have nonzero := (owned.held member).1
  rcases read_agrees tracks nonzero with ⟨_,low,high⟩ | ⟨_,low,_⟩
  · rw [read] at low
    cases low
    rw [NodeHeap.readNode,if_neg (Nat.not_le_of_lt (owned.held member).2),if_neg nonzero] at high
    cases found : h.nodes id with
    | ok => rw [found] at high; cases high; rfl
    | error => rw [found] at high; cases high
  · rw [read] at low
    cases low

theorem below_subtree (tracks : Tracks p h) (sub : Subtree h.nodes height root leaves pages) (owned : Owned h pages)
    (below : Below root p id) : ∃ part leaves held, Subtree h.nodes part id leaves held ∧ held ≤ pages := by
  induction below with
  | root => exact ⟨_,_,_,sub,le_refl _⟩
  | child _ read typ member ih =>
    obtain ⟨part,_,_,here,fewer⟩ := ih
    obtain ⟨_,_,_,_,inside⟩ := subtree_root here
    have found := read_tree tracks owned (Multiset.mem_of_le fewer inside) read
    cases part with
    | zero =>
      obtain ⟨_,again,_,leafTyp,_⟩ := here
      cases found.symm.trans again
      rw [leafTyp] at typ
      cases typ
    | succ part =>
      obtain ⟨_,_,again,_,_,_,_,kids,rfl⟩ := here
      cases found.symm.trans again
      obtain ⟨below,kept,kid,less⟩ := kids_child kids member
      exact ⟨part,below,kept,kid,le_trans less (le_trans (Multiset.le_cons_self _ _) fewer)⟩

theorem below_nonempty (tracks : Tracks p h) (rooted : Rooted h root leaves) (below : Below root p id)
    (read : BTreePager.readNode id p = .ok node q) (typ : node.typ = .branch) : node.entries ≠ [] := by
  obtain ⟨⟨_,_,sub,_,owned⟩,_⟩ := rooted
  obtain ⟨part,_,_,here,fewer⟩ := below_subtree tracks sub owned below
  obtain ⟨_,_,_,_,inside⟩ := subtree_root here
  have found := read_tree tracks owned (Multiset.mem_of_le fewer inside) read
  cases part with
  | zero =>
    obtain ⟨_,again,_,leafTyp,_⟩ := here
    cases found.symm.trans again
    rw [leafTyp] at typ
    cases typ
  | succ =>
    obtain ⟨_,_,again,_,_,_,some,_⟩ := here
    cases found.symm.trans again
    exact some

theorem meets_unbroken {low : EStateM Fault Pager α} {high : EStateM Fault Heap α} (follows : Simulates low high)
    (tracks : Tracks p h) (met : Meets high h post Ordinary) : Unbroken (low p) := by
  intro fault s failed
  obtain ⟨_,ordinary⟩ := meets_error failed (simulates_meets follows tracks met ordinary_tracked)
  exact ordinary_unbroken ordinary

theorem rooted_safe (tracks : Tracks p h) (rooted : Rooted h root leaves) : Safe root p where
  branches := fun id node q below read typ => below_nonempty tracks rooted below read typ
  get := by
    intro key
    by_cases keyed : key = []
    · subst keyed
      intro fault s failed
      cases failed
      rfl
    · have met : Meets (BTree.get heapStore root key) h (fun _ _ => True) Ordinary := by
        simp only [Meets,get_exact rooted keyed]
      exact meets_unbroken (get_simulates root key) tracks met
  put := fun key value => meets_unbroken (put_simulates root key value) tracks (put_meets rooted)
  delete := fun key => meets_unbroken (delete_simulates root key) tracks (delete_meets rooted)
  descent := by
    intro start fault s failed
    obtain ⟨_,_,_,_,_,found,_⟩ := descent_exact tracks rooted start
    rw [failed] at found
    cases found
  scan := by
    intro start stop fault s failed
    unfold BTree.scan at failed
    split at failed
    · cases failed
    · obtain ⟨_,_,_,_,_,found,tracked,_⟩ := descent_exact tracks rooted start
      have counted : pagerStore.pageCount p = .ok p.header.pageCount p := rfl
      simp only [bind,EStateM.bind,counted,found] at failed
      exact walk_safe tracked _ _ failed
  walk := fun turns it fault s failed => walk_safe tracks turns it failed

theorem single_last (holds : Holds h root ops [leaf]) (single : Single key leaf) : LastLive ops key := by
  obtain ⟨entry,shape,same⟩ := single
  refine ⟨?_,fun other live => ?_⟩
  · rw [← holds.exact key]
    simp [shape,find,same]
  · by_contra different
    have unequal : entry.key ≠ other := fun equal => different (equal.symm.trans same)
    rw [← holds.exact other] at live
    simp [shape,find,unequal] at live

theorem sparing_step (tracks : Tracks p h) (holds : Holds h root ops leaves) (sparing : Sparing root ops p op)
    (ran : perform pagerStore root op p = .ok () q) : ∃ t new, Tracks q t ∧ Holds t root (ops ++ [op]) new := by
  cases op with
  | put key value =>
    obtain ⟨t,after,_,new,rooted,entries,_⟩ := simulates_ok (put_simulates root key value) tracks ran
      (put_meets holds.rooted) ordinary_tracked
    exact ⟨t,new,after,put_holds holds rooted entries⟩
  | delete key =>
    obtain ⟨t,after,_,removed⟩ := simulates_ok (delete_simulates root key) tracks ran
      (delete_meets holds.rooted) ordinary_tracked
    cases removed with
    | rooted rooted erased same => exact ⟨t,_,after,delete_holds holds rooted (same.trans erased.entries)⟩
    | @hollow node _ _ found typ alone single =>
      subst alone
      have branch : BranchRoot root p := by
        obtain ⟨⟨_,_,sub,_,owned⟩,_⟩ := holds.rooted
        obtain ⟨_,_,_,_,inside⟩ := subtree_root sub
        obtain ⟨r,_,low,_⟩ := follows_ok (readNode_simulates root) tracks
          (by rw [read_exact owned inside found]; rfl)
        exact ⟨node,r,low,typ⟩
      exact absurd ⟨branch,single_last holds single⟩ sparing

theorem sparing_steps (steps : Steps root (Sparing root) p ops q) (tracks : Tracks p h)
    (holds : Holds h root [] leaves) : ∃ t new, Tracks q t ∧ Holds t root ops new := by
  induction steps with
  | nil => exact ⟨h,leaves,tracks,holds⟩
  | snoc _ sparing ran ih =>
    obtain ⟨_,_,tracked,now⟩ := ih
    exact sparing_step tracked now sparing ran

theorem hollow_unsafe (tracks : Tracks p h) (hollow : Hollow h root) : ¬ Safe root p := by
  intro safe
  have read : answer (BTree.get heapStore root [0] h) = .error (.noEntries root) := by
    rw [hollow_get hollow (by simp)]
    rfl
  obtain ⟨_,low⟩ := follows_fault (get_simulates root [0]) tracks read nofun
  cases safe.get [0] _ _ low

theorem last_empties (holds : Holds h root ops leaves) (last : LastLive ops key) :
    SortedRun.drop Entry.key (contents leaves) key = [] := by
  apply List.filter_eq_nil_iff.mpr
  intro e member
  have live : lastValue ops e.key ≠ none := by
    rw [← holds.exact e.key,(find_exact Entry.key holds.rooted.sorted e.key e).mpr ⟨member,rfl⟩]
    simp
  simpa using last.2 e.key live

theorem broken_step (tracks : Tracks p h) (holds : Holds h root ops leaves)
    (ran : perform pagerStore root op p = .ok () q) (safe : Safe root q) : Sparing root ops p op := by
  cases op with
  | put => trivial
  | delete key =>
    rintro ⟨⟨node,_,read,typ⟩,last⟩
    obtain ⟨_,after,_,removed⟩ := simulates_ok (delete_simulates root key) tracks ran
      (delete_meets holds.rooted) ordinary_tracked
    cases removed with
    | rooted _ erased _ _ some =>
      obtain ⟨⟨_,_,sub,_,owned⟩,_⟩ := holds.rooted
      obtain ⟨_,_,_,_,inside⟩ := subtree_root sub
      refine some node (read_tree tracks owned inside read) typ ?_
      rw [erased.entries]
      exact last_empties holds last
    | hollow hollow => exact hollow_unsafe after hollow safe

theorem safe_sparing (steps : Steps root Always p ops q) (tracks : Tracks p h) (holds : Holds h root [] leaves)
    (safe : Safe root q) : Steps root (Sparing root) p ops q := by
  induction steps with
  | nil => exact .nil
  | snoc before _ ran ih =>
    obtain ⟨_,tracked,stands⟩ := steps_stand before tracks (.tree holds)
    cases stands with
    | tree now => exact .snoc (ih (rooted_safe tracked now.rooted)) (broken_step tracked now ran safe) ran
    | hollow hollow =>
      obtain ⟨_,_,never⟩ := simulates_ok (perform_simulates root _) tracked ran (hollow_perform hollow _)
        stuck_tracked
      exact never.elim

-- Structure: the tree is sound after a history exactly when no Delete of it
-- took the last live entry from under a root branch.
theorem safe_exactly_after_sparing_runs (reached : Reached root Always ops p) :
    Safe root p ↔ Reached root (Sparing root) ops p := by
  constructor
  · intro safe
    obtain ⟨file,opened,made,open_,create,steps⟩ := reached
    obtain ⟨_,_,tracks,holds,_⟩ := created open_ create
    exact ⟨file,opened,made,open_,create,safe_sparing steps tracks holds safe⟩
  · rintro ⟨_,_,_,opened,create,steps⟩
    obtain ⟨_,_,tracks,holds,_⟩ := created opened create
    obtain ⟨_,_,tracked,now⟩ := sparing_steps steps tracks holds
    exact rooted_safe tracked now.rooted

-- Runs over long keys recurse as deep as a key is long.
set_option maxRecDepth 20000

theorem three_wide_puts_stay_safe : ∃ p, Reached 1 Always threeWide p ∧ Reached 1 (Sparing 1) threeWide p ∧
    (Safe 1 p ↔ Reached 1 (Sparing 1) threeWide p) := by
  have puts : ∀ done, ∀ s : Pager, ∀ op ∈ threeWide, Sparing 1 done s op := by
    intro done s op member
    simp only [threeWide,List.mem_cons,List.not_mem_nil,or_false] at member
    rcases member with rfl | rfl | rfl <;> trivial
  obtain ⟨_,p,_,_,reached⟩ := @blank_reached 1 threeWide (Sparing 1) (by decide +kernel) puts
  exact ⟨p,reached.always,reached,safe_exactly_after_sparing_runs reached.always⟩

def hollowOps : List Operation := [.put (wide 1) [],.put (wide 2) [],.put (wide 3) [],.put (wide 4) [],
  .put (wide 5) [],.delete (wide 2),.delete (wide 3),.delete (wide 4),.delete (wide 5),.delete (wide 1)]

-- Deletes collapse the root onto a branch with one child; deleting the last
-- entry then leaves a root branch without entries.
theorem delete_leaves_empty_root_branch : ∃ p q r s node, Reached 1 Always hollowOps p ∧
    BTreePager.readNode 1 p = .ok node q ∧ node.typ = .branch ∧ node.entries = [] ∧
    BTree.get pagerStore 1 [7] p = .error (.noEntries 1) r ∧ BTree.put pagerStore 1 [7] [] p = .error .indexOutOfRange s := by
  obtain ⟨_,p,ran,tracks,reached⟩ := @blank_reached 1 hollowOps Always (by decide +kernel) (fun _ _ _ _ => trivial)
  have node : answer ((history heapStore hollowOps >>= fun root => heapStore.readNode root) blankHeap) =
      .ok ⟨1,.branch,0,[]⟩ := by decide +kernel
  have got : answer ((history heapStore hollowOps >>= fun root => BTree.get heapStore root [7]) blankHeap) =
      .error (.noEntries 1) := by decide +kernel
  have wrote : answer ((history heapStore hollowOps >>= fun root => BTree.put heapStore root [7] []) blankHeap) =
      .error .indexOutOfRange := by decide +kernel
  rw [bind_ran ran] at node got wrote
  obtain ⟨q,_,read,_⟩ := follows_ok (readNode_simulates 1) tracks node
  obtain ⟨r,missing⟩ := follows_fault (get_simulates 1 [7]) tracks got nofun
  obtain ⟨s,panicked⟩ := follows_fault (put_simulates 1 [7] []) tracks wrote nofun
  exact ⟨p,q,r,s,_,reached,read,rfl,rfl,missing,panicked⟩

end Kronos.BTreeSafety
