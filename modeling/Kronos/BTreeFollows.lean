import Kronos.NodeHeap

namespace Kronos.NodeHeap
open Effect BTreeNode BTree PageStore BTreePager

variable {p : Pager} {h : Heap} {id : Nat}

-- Two stores on which programs run alike, for any sense of alike that the steps
-- of a program keep.
structure Alike (S : Store σ) (T : Store τ) (sim : ∀ {α : Type}, EStateM Fault σ α → EStateM Fault τ α → Prop) :
    Prop where
  pure : ∀ {α : Type} (a : α), sim (Pure.pure a) (Pure.pure a)
  throw : ∀ {α : Type} (fault : Fault), @sim α (MonadExcept.throw fault) (MonadExcept.throw fault)
  bind : ∀ {α β : Type} {low : EStateM Fault σ α} {high : EStateM Fault τ α} {lowNext : α → EStateM Fault σ β}
    {highNext : α → EStateM Fault τ β}, sim low high → (∀ a, sim (lowNext a) (highNext a)) →
      sim (low >>= lowNext) (high >>= highNext)
  readNode : ∀ id, sim (S.readNode id) (T.readNode id)
  writeNode : ∀ node, sim (S.writeNode node) (T.writeNode node)
  allocPage : sim S.allocPage T.allocPage
  freePage : ∀ id, sim (S.freePage id) (T.freePage id)
  pageCount : sim S.pageCount T.pageCount

section
variable {σ τ : Type} {S : Store σ} {T : Store τ} {sim : ∀ {α : Type}, EStateM Fault σ α → EStateM Fault τ α → Prop}

theorem Alike.ite {α : Type} {P : Prop} [Decidable P] {a b : EStateM Fault σ α} {c d : EStateM Fault τ α}
    (_ : Alike S T sim) (yes : sim a c) (no : sim b d) : sim (if P then a else b) (if P then c else d) := by
  split
  · exact yes
  · exact no

theorem entryAt_alike (alike : Alike S T sim) (entries : List Entry) (index : Int) :
    sim (entryAt entries index) (entryAt entries index) := by
  unfold entryAt
  split
  · split
    · exact alike.pure _
    · exact alike.throw _
  · exact alike.throw _

theorem childFor_alike (alike : Alike S T sim) (node : Node) (key : ByteRange.Bytes) :
    sim (childFor node key) (childFor node key) := by
  refine alike.ite (alike.throw _) (alike.ite (alike.throw _) ?_)
  refine alike.bind (entryAt_alike alike _ _) (fun entry => ?_)
  exact alike.ite (alike.bind (entryAt_alike alike _ _) (fun _ => alike.pure _)) (alike.pure _)

theorem createBTree_alike (alike : Alike S T sim) : sim (createBTree S) (createBTree T) :=
  alike.bind alike.allocPage fun _ =>
    alike.bind (alike.writeNode _) fun _ => alike.pure _

theorem getAt_alike (alike : Alike S T sim) (depth pageID : Nat) (key : ByteRange.Bytes) :
    sim (getAt S depth pageID key) (getAt T depth pageID key) := by
  induction depth generalizing pageID with
  | zero => exact alike.throw _
  | succ _ ih =>
    refine alike.bind (alike.readNode _) (fun node => ?_)
    cases node.typ with
    | unset => exact alike.throw _
    | leaf =>
      cases search node.entries key with
      | none => exact alike.pure _
      | some => exact alike.bind (entryAt_alike alike _ _) (fun _ => alike.pure _)
    | branch => exact alike.bind (childFor_alike alike _ _) (fun child => ih child)

theorem get_alike (alike : Alike S T sim) (root : Nat) (key : ByteRange.Bytes) :
    sim (get S root key) (get T root key) :=
  alike.ite (alike.throw _) (alike.bind alike.pageCount fun depth => getAt_alike alike depth root key)

theorem splitNonRoot_alike (alike : Alike S T sim) (node : Node) : sim (splitNonRoot S node) (splitNonRoot T node) :=
  alike.bind alike.allocPage fun _ => alike.bind (alike.writeNode _) fun _ =>
    alike.bind (alike.writeNode _) fun _ => alike.pure _

theorem splitRootBranch_alike (alike : Alike S T sim) (root : Node) :
    sim (splitRootBranch S root) (splitRootBranch T root) :=
  alike.bind alike.allocPage fun _ => alike.bind alike.allocPage fun _ =>
    alike.bind (alike.writeNode _) fun _ => alike.bind (alike.writeNode _) fun _ =>
      alike.writeNode _

theorem splitRootLeaf_alike (alike : Alike S T sim) (root : Node) : sim (splitRootLeaf S root) (splitRootLeaf T root) :=
  alike.bind alike.allocPage fun _ => alike.bind alike.allocPage fun _ =>
    alike.bind (alike.writeNode _) fun _ => alike.bind (alike.writeNode _) fun _ =>
      alike.writeNode _

theorem writeOrSplit_alike (alike : Alike S T sim) (node : Node) : sim (writeOrSplit S node) (writeOrSplit T node) :=
  alike.ite (alike.bind (alike.writeNode _) fun _ => alike.pure _) (splitNonRoot_alike alike node)

theorem putNonRoot_alike (alike : Alike S T sim) (depth : Nat) (node : Node) (key value : ByteRange.Bytes) :
    sim (putNonRoot S depth node key value) (putNonRoot T depth node key value) := by
  induction depth generalizing node with
  | zero => exact alike.throw _
  | succ _ ih =>
    unfold putNonRoot
    cases node.typ with
    | unset => exact alike.throw _
    | leaf => exact writeOrSplit_alike alike _
    | branch =>
      exact alike.bind (entryAt_alike alike _ _) fun _ => alike.bind (alike.readNode _) fun child =>
        alike.bind (ih child) fun _ => alike.bind (alike.readNode _) fun _ => writeOrSplit_alike alike _

theorem putRootBranch_alike (alike : Alike S T sim) (root : Node) (key value : ByteRange.Bytes) :
    sim (putRootBranch S root key value) (putRootBranch T root key value) :=
  alike.bind (entryAt_alike alike _ _) fun _ => alike.bind (alike.readNode _) fun child =>
    alike.bind alike.pageCount fun depth => alike.bind (putNonRoot_alike alike depth child key value) fun _ =>
      alike.bind (alike.readNode _) fun _ =>
        alike.ite (alike.writeNode _) (splitRootBranch_alike alike _)

theorem put_alike (alike : Alike S T sim) (root : Nat) (key value : ByteRange.Bytes) :
    sim (put S root key value) (put T root key value) := by
  refine alike.ite (alike.throw _) (alike.bind (alike.readNode _) fun node => ?_)
  cases node.typ with
  | unset => exact alike.throw _
  | leaf => exact alike.ite (alike.writeNode _) (splitRootLeaf_alike alike _)
  | branch => exact putRootBranch_alike alike _ _ _

theorem detachChild_alike (alike : Alike S T sim) (node : Node) (index : Int) (child : Node) (isRoot : Bool) :
    sim (detachChild S node index child isRoot) (detachChild T node index child isRoot) := by
  refine alike.ite (alike.bind ?_ fun _ => alike.bind (alike.writeNode _) fun _ => alike.pure _)
    (alike.bind (alike.writeNode _) fun _ => alike.bind (alike.writeNode _) fun _ => alike.pure _)
  exact alike.ite (alike.pure _) (alike.freePage _)

theorem deleteFromBranch_alike (alike : Alike S T sim) (depth : Nat) (node : Node) (key : ByteRange.Bytes) (isRoot : Bool) :
    sim (deleteFromBranch S depth node key isRoot) (deleteFromBranch T depth node key isRoot) := by
  induction depth generalizing node isRoot with
  | zero => exact alike.throw _
  | succ _ ih =>
    refine alike.ite (alike.throw _) ?_
    refine alike.bind (entryAt_alike alike _ _) fun _ => alike.bind (alike.readNode _) fun child => ?_
    cases child.typ with
    | unset => exact alike.throw _
    | leaf =>
      cases deleteEntry child.entries key with
      | none => exact alike.pure _
      | some => exact detachChild_alike alike _ _ _ _
    | branch =>
      exact alike.bind (ih child false) fun _ => alike.ite
        (alike.bind (alike.readNode _) fun _ => detachChild_alike alike _ _ _ _) (alike.pure _)

theorem delete_alike (alike : Alike S T sim) (root : Nat) (key : ByteRange.Bytes) :
    sim (delete S root key) (delete T root key) := by
  refine alike.ite (alike.throw _) (alike.bind (alike.readNode _) fun node => ?_)
  cases node.typ with
  | unset => exact alike.throw _
  | leaf =>
    cases deleteEntry node.entries key with
    | none => exact alike.pure _
    | some => exact alike.writeNode _
  | branch =>
    refine alike.bind alike.pageCount fun depth =>
      alike.bind (deleteFromBranch_alike alike depth node key true) fun _ => alike.ite ?_ (alike.pure _)
    refine alike.bind (alike.readNode _) fun _ => alike.ite ?_ (alike.writeNode _)
    exact alike.bind (entryAt_alike alike _ _) fun _ => alike.bind (alike.readNode _) fun _ =>
      alike.writeNode _

theorem firstLeafAt_alike (alike : Alike S T sim) (depth pageID : Nat) (key : ByteRange.Bytes) :
    sim (firstLeafAt S depth pageID key) (firstLeafAt T depth pageID key) := by
  induction depth generalizing pageID with
  | zero => exact alike.throw _
  | succ _ ih =>
    refine alike.bind (alike.readNode _) (fun node => ?_)
    cases node.typ with
    | unset => exact alike.throw _
    | leaf => exact alike.pure _
    | branch => exact alike.bind (childFor_alike alike _ _) (fun child => ih child)

end

theorem pager_heap_alike : Alike pagerStore heapStore Simulates where
  pure := simulates_pure
  throw := simulates_throw
  bind := simulates_bind
  readNode := readNode_simulates
  writeNode := writeNode_simulates
  allocPage := allocPage_simulates
  freePage := freePage_simulates
  pageCount := pageCount_simulates

theorem createBTree_simulates : Simulates (createBTree pagerStore) (createBTree heapStore) :=
  createBTree_alike pager_heap_alike

theorem get_simulates (root : Nat) (key : ByteRange.Bytes) :
    Simulates (get pagerStore root key) (get heapStore root key) := get_alike pager_heap_alike root key

theorem put_simulates (root : Nat) (key value : ByteRange.Bytes) :
    Simulates (put pagerStore root key value) (put heapStore root key value) := put_alike pager_heap_alike root key value

theorem delete_simulates (root : Nat) (key : ByteRange.Bytes) :
    Simulates (delete pagerStore root key) (delete heapStore root key) := delete_alike pager_heap_alike root key

theorem firstLeafAt_simulates (depth pageID : Nat) (key : ByteRange.Bytes) :
    Simulates (firstLeafAt pagerStore depth pageID key) (firstLeafAt heapStore depth pageID key) :=
  firstLeafAt_alike pager_heap_alike depth pageID key

-- skipEmpty keeps going after a failed read, so the two sides must agree on
-- the error as well, and a failed read must leave the pager as it was.
theorem read_agrees (tracks : Tracks p h) (nonzero : id ≠ 0) :
    (∃ node, BTreePager.readNode id p = .ok node p ∧ readNode id h = .ok node h) ∨
      ∃ fault, BTreePager.readNode id p = .error fault p ∧ readNode id h = .error fault h := by
  by_cases outside : id ≥ h.pageCount
  · refine .inr ⟨.pageOutOfRange id,?_,by rw [readNode,if_pos outside]⟩
    simp only [BTreePager.readNode,bind,EStateM.bind,page_outside tracks outside]
  · obtain ⟨page,held,ran⟩ := page_exact tracks (Nat.lt_of_not_le outside)
    have view := tracks.view id page nonzero (Nat.lt_of_not_le outside) held
    unfold readNode
    rw [if_neg outside,if_neg nonzero,view]
    cases decoded : decodeNode id page with
    | ok node =>
      exact .inl ⟨node,by simp only [BTreePager.readNode,bind,EStateM.bind,ran,decoded]; rfl,rfl⟩
    | error fault =>
      exact .inr ⟨fault,by simp only [BTreePager.readNode,bind,EStateM.bind,ran,decoded]; rfl,rfl⟩

theorem attempt_read_simulates (nonzero : id ≠ 0) :
    Simulates (attempt (BTreePager.readNode id)) (attempt (readNode id)) := by
  intro p h tracks
  rcases read_agrees tracks nonzero with ⟨_,low,high⟩ | ⟨_,low,high⟩
  · simp only [attempt,low,high]
    exact ⟨p,rfl,tracks⟩
  · simp only [attempt,low,high]
    exact ⟨p,rfl,tracks⟩

theorem skipEmpty_simulates (left : Nat) (it : Iterator) :
    Simulates (skipEmpty pagerStore left it) (skipEmpty heapStore left it) := by
  induction left generalizing it with
  | zero => exact simulates_throw _
  | succ _ ih =>
    unfold skipEmpty
    by_cases more : it.err = none ∧ it.node.typ = .leaf ∧ it.index ≥ it.node.entries.length ∧ it.node.next ≠ 0
    · rw [if_pos more,if_pos more]
      refine simulates_bind (attempt_read_simulates more.2.2.2) fun read => ?_
      cases read with
      | ok => exact ih _
      | error => exact simulates_ite (simulates_throw _) (simulates_pure _)
    · rw [if_neg more,if_neg more]
      exact simulates_pure _

theorem scan_simulates (root : Nat) (start : ByteRange.Bytes) (stop : Option ByteRange.Bytes) :
    Simulates (scan pagerStore root start stop) (scan heapStore root start stop) :=
  simulates_ite (simulates_pure _) (simulates_bind pageCount_simulates fun depth =>
    simulates_bind (firstLeafAt_simulates depth root start) fun _ => skipEmpty_simulates _ _)

theorem next_simulates (it : Iterator) : Simulates (next pagerStore it) (next heapStore it) :=
  simulates_ite (simulates_bind pageCount_simulates fun _ => skipEmpty_simulates _ _) (simulates_pure _)

theorem drive_simulates (count : Nat) (it : Iterator) :
    Simulates (drive pagerStore count it) (drive heapStore count it) := by
  induction count generalizing it with
  | zero => exact simulates_pure _
  | succ _ ih =>
    unfold drive
    split
    · exact simulates_bind (next_simulates it) fun it => simulates_bind (ih it) fun _ => simulates_pure _
    · exact simulates_pure _

end Kronos.NodeHeap
