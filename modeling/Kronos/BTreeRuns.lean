import Kronos.BTreeDelete
import Kronos.BTreeFollows
import Kronos.BTreeRead

namespace Kronos.BTreeRuns
open ByteRange SortedRun BTreeNode BTree BTreeShape BTreePut BTreeDelete BTreeRead PageStore BTreePager
  NodeHeap Effect

inductive Operation where
  | put (key value : Bytes) | delete (key : Bytes)
  deriving DecidableEq, Repr

def Operation.key : Operation → Bytes
  | .put key _ | .delete key => key

def perform (S : Store σ) (root : Nat) : Operation → EStateM Fault σ Unit
  | .put key value => BTree.put S root key value
  | .delete key => BTree.delete S root key

-- The map a history stands for: what the last operation on a key left there.
def lastValue (ops : List Operation) (key : Bytes) : Option Bytes :=
  match ops.reverse.find? (fun op => decide (op.key = key)) with
  | some (.put _ value) => some value
  | _ => none

-- Successful operations on one tree, each of them allowed after those before it
-- and in the state it is done in.
inductive Steps (root : Nat) (allowed : List Operation → Pager → Operation → Prop) :
    Pager → List Operation → Pager → Prop where
  | nil : Steps root allowed p [] p
  | snoc : Steps root allowed p ops q → allowed ops q op → perform pagerStore root op q = .ok () r →
      Steps root allowed p (ops ++ [op]) r

-- A tree made by CreateBTree in a page file that opens, after such operations.
def Reached (root : Nat) (allowed : List Operation → Pager → Operation → Prop) (ops : List Operation) (p : Pager) : Prop :=
  ∃ file opened made, openPager file = .ok opened ∧ createBTree pagerStore opened = .ok root made ∧
    Steps root allowed made ops p

variable {p q : Pager} {h t : Heap} {root : Nat} {key value : Bytes} {leaves : List Node} {ops : List Operation}
  {allowed : List Operation → Pager → Operation → Prop} {fault : Fault} {r : Pager}

def Always (_ : List Operation) (_ : Pager) (_ : Operation) : Prop := True

theorem Steps.always (steps : Steps root allowed p ops q) : Steps root Always p ops q := by
  induction steps with
  | nil => exact .nil
  | snoc _ _ ran ih => exact .snoc ih trivial ran

theorem Reached.always (reached : Reached root allowed ops p) : Reached root Always ops p := by
  obtain ⟨file,opened,made,open_,create,steps⟩ := reached
  exact ⟨file,opened,made,open_,create,steps.always⟩

theorem lastValue_snoc (ops : List Operation) (op : Operation) (key : Bytes) :
    lastValue (ops ++ [op]) key = if op.key = key then (match op with
      | .put _ value => some value
      | .delete _ => none) else lastValue ops key := by
  simp only [lastValue,List.reverse_append,List.reverse_singleton,List.singleton_append,List.find?_cons]
  by_cases same : op.key = key
  · simp only [same,decide_true,if_true]
    cases op <;> rfl
  · simp only [same,decide_false,if_false]

def Tracked (bad : Fault → Heap → Prop) : Prop := ∀ fault t, bad fault t → ∀ id, fault ≠ .untracked id

theorem ordinary_tracked : Tracked Ordinary := by
  rintro _ _ ordinary _ rfl
  cases ordinary

-- The pager follows the heap: an answer of one is an answer of the other, and
-- a fault the heap cannot raise is not raised by the pager either.
theorem simulates_meets {low : EStateM Fault Pager α} {high : EStateM Fault Heap α} (follows : Simulates low high)
    (tracks : Tracks p h) (met : Meets high h post bad) (tracked : Tracked bad) :
    Meets low p (fun a q => ∃ t, Tracks q t ∧ post a t) (fun fault _ => ∃ t, bad fault t) := by
  have one := follows p h tracks
  unfold Meets at met ⊢
  cases outcome : high h with
  | ok _ t =>
    rw [outcome] at one met
    obtain ⟨_,same,tracksAfter⟩ := one
    rw [same]
    exact ⟨t,tracksAfter,met⟩
  | error fault t =>
    rw [outcome] at one met
    rcases one with ⟨id,lost⟩ | ⟨_,same⟩
    · exact absurd lost (tracked fault t met id)
    · rw [same]
      exact ⟨t,met⟩

theorem simulates_ok {low : EStateM Fault Pager α} {high : EStateM Fault Heap α} (follows : Simulates low high)
    (tracks : Tracks p h) (ran : low p = .ok a q) (met : Meets high h post bad) (tracked : Tracked bad) :
    ∃ t, Tracks q t ∧ post a t :=
  meets_ok ran (simulates_meets follows tracks met tracked)

theorem perform_simulates (root : Nat) (op : Operation) :
    Simulates (perform pagerStore root op) (perform heapStore root op) := by
  cases op with
  | put key value => exact put_simulates root key value
  | delete key => exact delete_simulates root key

structure Holds (h : Heap) (root : Nat) (ops : List Operation) (leaves : List Node) : Prop where
  rooted : Rooted h root leaves
  exact : ∀ key, (find Entry.key (contents leaves) key).map Entry.value = lastValue ops key

inductive Stands (h : Heap) (root : Nat) (ops : List Operation) : Prop where
  | tree {leaves : List Node} : Holds h root ops leaves → Stands h root ops
  | hollow : Hollow h root → (∀ key, lastValue ops key = none) → Stands h root ops

theorem put_holds (holds : Holds h root ops leaves) (rooted : Rooted t root new)
    (entries : contents new = SortedRun.put Entry.key (contents leaves) ⟨key,value,0⟩) :
    Holds t root (ops ++ [.put key value]) new := by
  refine ⟨rooted,fun other => ?_⟩
  rw [lastValue_snoc,entries,find_put Entry.key holds.rooted.sorted,← holds.exact other]
  by_cases same : key = other
  · simp [Operation.key,same]
  · simp [Operation.key,same,Ne.symm same]

theorem delete_holds (holds : Holds h root ops leaves) (rooted : Rooted t root new)
    (entries : contents new = SortedRun.drop Entry.key (contents leaves) key) :
    Holds t root (ops ++ [.delete key]) new := by
  refine ⟨rooted,fun other => ?_⟩
  rw [lastValue_snoc,entries,find_drop Entry.key holds.rooted.sorted,← holds.exact other]
  by_cases same : key = other
  · simp [Operation.key,same]
  · simp [Operation.key,same,Ne.symm same]

theorem delete_hollow (holds : Holds h root ops [leaf]) (single : Single key leaf) (other : Bytes) :
    lastValue (ops ++ [.delete key]) other = none := by
  obtain ⟨_,shape,same⟩ := single
  rw [lastValue_snoc,← holds.exact other]
  by_cases equal : key = other
  · simp [Operation.key,equal]
  · simp [Operation.key,equal,shape,find,same]

theorem perform_meets (holds : Holds h root ops leaves) (op : Operation) :
    Meets (perform heapStore root op) h (fun _ t => Stands t root (ops ++ [op])) Ordinary := by
  cases op with
  | put =>
    refine meets_mono (put_meets holds.rooted) ?_
    rintro _ _ ⟨_,_,rooted,entries,_⟩
    exact .tree (put_holds holds rooted entries)
  | delete =>
    refine meets_mono (delete_meets holds.rooted) ?_
    rintro _ _ ⟨_,removed⟩
    cases removed with
    | rooted rooted erased same => exact .tree (delete_holds holds rooted (same.trans erased.entries))
    | hollow hollow _ _ alone single =>
      subst alone
      exact .hollow hollow (delete_hollow holds single)

def Stuck (fault : Fault) (_ : Heap) : Prop :=
  fault = .keyRequired ∨ fault = .indexOutOfRange ∨ ∃ id, fault = .noEntries id

theorem stuck_tracked : Tracked Stuck := by
  rintro _ _ (rfl | rfl | ⟨_,rfl⟩) id same <;> cases same

-- On a root branch without entries Put indexes out of range, Delete and Get
-- report the missing entries.
theorem hollow_perform (hollow : Hollow h root) (op : Operation) :
    Meets (perform heapStore root op) h (fun _ _ => False) Stuck := by
  obtain ⟨⟨_,found,_,typ,empty⟩,owned⟩ := hollow
  have read := read_exact owned (by simp) found
  cases op with
  | put key value =>
    change Meets (BTree.put heapStore root key value) h _ _
    unfold BTree.put
    split
    · exact meets_throw (.inl rfl)
    · refine meets_ran read ?_
      simp only [typ,putRootBranch,empty]
      exact .inr (.inl rfl)
  | delete key =>
    change Meets (BTree.delete heapStore root key) h _ _
    unfold BTree.delete
    split
    · exact meets_throw (.inl rfl)
    · refine meets_ran read ?_
      simp only [typ]
      have positive := owned.positive
      obtain ⟨less,same⟩ : ∃ less, h.pageCount = less + 1 := ⟨h.pageCount - 1,by omega⟩
      refine meets_ran (count_exact h) ?_
      rw [same]
      simp only [deleteFromBranch,empty]
      exact .inr (.inr ⟨_,rfl⟩)

theorem hollow_get (hollow : Hollow h root) (keyed : key ≠ []) :
    BTree.get heapStore root key h = .error (.noEntries root) h := by
  obtain ⟨⟨_,found,rfl,typ,empty⟩,owned⟩ := hollow
  unfold BTree.get
  rw [if_neg (by simpa using keyed)]
  have positive := owned.positive
  obtain ⟨less,same⟩ : ∃ less, h.pageCount = less + 1 := ⟨h.pageCount - 1,by omega⟩
  refine (bind_ran (count_exact h)).trans ?_
  rw [same]
  refine (bind_ran (read_exact owned (by simp) found)).trans ?_
  simp only [typ,childFor,empty]
  rfl

-- A pager as a heap, and the tree CreateBTree makes in it.
def heapOf (p : Pager) (free : List Nat) : Heap where
  nodes := fun id => match p.file.pages[id]? with
    | some page => decodeNode id page
    | none => .error (.pageOutOfRange id)
  pageCount := p.header.pageCount
  free := free
  limit := p.file.limit

theorem heapOf_tracks (sound : Sound p free) : Tracks p (heapOf p free) where
  sound := sound
  count := rfl
  limit := rfl
  view := by
    intro id page _ _ held
    simp only [heapOf,held]

theorem heapOf_owned (sound : Sound p free) : Owned (heapOf p free) 0 where
  distinct := by simpa [heapOf] using sound.distinct
  inside := by
    intro id member
    have listed : id ∈ free := by simpa [heapOf] using member
    exact chain_members sound.chain id listed
  positive := sound.positive
  room := le_trans sound.backed p.file.fits
  small := lt_trans p.file.small (by decide)

theorem create_meets (counted : Counted lost h 0) : Meets (createBTree heapStore) h
    (fun root t => ∃ leaves, Holds t root [] leaves ∧ Linked leaves 0 ∧ Planted lost t root leaves) Ordinary := by
  refine meets_bind (alloc_counted counted) ?_
  rintro root fresh ⟨countedRoot,_⟩
  have valid : WellFormed ⟨root,.leaf,0,[]⟩ :=
    ⟨nofun,Nat.two_pow_pos 64,List.Pairwise.nil,nofun,nofun,nofun⟩
  refine meets_bind (write_meets countedRoot.toOwned (Multiset.mem_cons_self root 0) valid) ?_
  rintro _ _ ⟨rfl,_⟩
  have tree := leaf_tree (set_same fresh root (.ok ⟨root,.leaf,0,[]⟩)) rfl rfl valid
  have planted : Planted lost (fresh.set root (.ok ⟨root,.leaf,0,[]⟩)) root [⟨root,.leaf,0,[]⟩] :=
    ⟨⟨0,_,tree,.inl rfl,countedRoot.set _⟩,List.Pairwise.nil⟩
  exact meets_pure ⟨_,⟨planted.rooted,fun _ => rfl⟩,⟨rfl,trivial⟩,planted⟩

theorem created (open_ : openPager file = .ok opened) (create : createBTree pagerStore opened = .ok root made) :
    ∃ h leaves, Tracks made h ∧ Holds h root [] leaves ∧ Linked leaves 0 := by
  obtain ⟨_,sound,_⟩ := openPager_sound open_
  obtain ⟨_,counted⟩ := (heapOf_owned sound).counted
  obtain ⟨t,tracks,leaves,holds,linked,_⟩ := simulates_ok createBTree_simulates (heapOf_tracks sound) create
    (create_meets counted) ordinary_tracked
  exact ⟨t,leaves,tracks,holds,linked⟩

theorem perform_stands (tracks : Tracks p h) (stands : Stands h root ops)
    (ran : perform pagerStore root op p = .ok () q) : ∃ t, Tracks q t ∧ Stands t root (ops ++ [op]) := by
  cases stands with
  | tree holds =>
    obtain ⟨t,after,next⟩ := simulates_ok (perform_simulates root op) tracks ran (perform_meets holds op)
      ordinary_tracked
    exact ⟨t,after,next⟩
  | hollow hollow =>
    obtain ⟨_,_,never⟩ := simulates_ok (perform_simulates root op) tracks ran (hollow_perform hollow op)
      stuck_tracked
    exact never.elim

theorem steps_stand (steps : Steps root allowed p ops q) (tracks : Tracks p h) (stands : Stands h root []) :
    ∃ t, Tracks q t ∧ Stands t root ops := by
  induction steps with
  | nil => exact ⟨h,tracks,stands⟩
  | snoc _ _ ran ih =>
    obtain ⟨_,tracked,now⟩ := ih
    exact perform_stands tracked now ran

theorem reached_stands (reached : Reached root allowed ops p) : ∃ h, Tracks p h ∧ Stands h root ops := by
  obtain ⟨_,_,_,opened,create,steps⟩ := reached
  obtain ⟨_,_,tracks,holds,_⟩ := created opened create
  exact steps_stand steps tracks (.tree holds)

def performAll (S : Store σ) (root : Nat) : List Operation → EStateM Fault σ Unit
  | [] => pure ()
  | op :: rest => do
    perform S root op
    performAll S root rest

def history (S : Store σ) (ops : List Operation) : EStateM Fault σ Nat := do
  let root ← createBTree S
  performAll S root ops
  return root

theorem performAll_simulates (root : Nat) (ops : List Operation) :
    Simulates (performAll pagerStore root ops) (performAll heapStore root ops) := by
  induction ops with
  | nil => exact simulates_pure _
  | cons op _ ih => exact simulates_bind (perform_simulates root op) fun _ => ih

theorem history_simulates (ops : List Operation) : Simulates (history pagerStore ops) (history heapStore ops) :=
  simulates_bind createBTree_simulates fun root => simulates_bind (performAll_simulates root ops) fun _ => simulates_pure _

theorem performAll_steps (steps : Steps root allowed p done q) (free : ∀ done s, ∀ op ∈ ops, allowed done s op)
    (ran : performAll pagerStore root ops q = .ok () r) : Steps root allowed p (done ++ ops) r := by
  induction ops generalizing done q with
  | nil =>
    cases ran
    simpa using steps
  | cons op _ ih =>
    obtain ⟨_,s,first,later⟩ := bind_ok.mp ran
    have more := ih (.snoc steps (free done q op (by simp)) first)
      (fun done s op member => free done s op (by simp [member])) later
    simpa using more

theorem history_steps (free : ∀ done s, ∀ op ∈ ops, allowed done s op)
    (ran : history pagerStore ops opened = .ok root p) :
    ∃ made, createBTree pagerStore opened = .ok root made ∧ Steps root allowed made ops p := by
  obtain ⟨_,made,create,rest⟩ := bind_ok.mp ran
  obtain ⟨_,_,performed,returned⟩ := bind_ok.mp rest
  cases returned
  exact ⟨made,create,performAll_steps .nil free performed⟩

-- A file without pages on a disk with room for a hundred.
def blankFile : DiskFile := ⟨[],0,pageSize_pos,100,by decide,by decide⟩

def blankHeap : Heap := ⟨fun id => .error (.pageOutOfRange id),1,[],100⟩

theorem blank_opens : ∃ p, openPager blankFile = .ok p ∧ Tracks p blankHeap := by
  obtain ⟨p,opened,sound,header,limit,_⟩ := @openPager_new blankFile rfl (by decide)
  refine ⟨p,opened,sound,by rw [header]; rfl,limit,?_⟩
  intro id page nonzero inside _
  exact absurd (Nat.lt_one_iff.mp inside) nonzero

def answer (result : EStateM.Result Fault σ α) : Except Fault α :=
  match result with
  | .ok a _ => .ok a
  | .error fault _ => .error fault

theorem answer_ok {result : EStateM.Result Fault σ α} (answered : answer result = .ok a) : ∃ s, result = .ok a s := by
  cases result with
  | ok _ s => cases answered; exact ⟨s,rfl⟩
  | error => cases answered

theorem answer_error {result : EStateM.Result Fault σ α} (answered : answer result = .error fault) :
    ∃ s, result = .error fault s := by
  cases result with
  | ok => cases answered
  | error _ s => cases answered; exact ⟨s,rfl⟩

theorem blank_steps (done : answer (history heapStore ops blankHeap) = .ok root)
    (free : ∀ done s, ∀ op ∈ ops, allowed done s op) :
    ∃ h p opened made, history heapStore ops blankHeap = .ok root h ∧ Tracks p h ∧ openPager blankFile = .ok opened ∧
      createBTree pagerStore opened = .ok root made ∧ Steps root allowed made ops p := by
  obtain ⟨opened,open_,tracks⟩ := blank_opens
  obtain ⟨h,ran⟩ := answer_ok done
  have followed := history_simulates ops opened blankHeap tracks
  rw [ran] at followed
  obtain ⟨p,low,tracked⟩ := followed
  obtain ⟨made,create,steps⟩ := history_steps free low
  exact ⟨h,p,opened,made,ran,tracked,open_,create,steps⟩

theorem blank_reached (done : answer (history heapStore ops blankHeap) = .ok root)
    (free : ∀ done s, ∀ op ∈ ops, allowed done s op) :
    ∃ h p, history heapStore ops blankHeap = .ok root h ∧ Tracks p h ∧ Reached root allowed ops p := by
  obtain ⟨h,p,opened,made,ran,tracks,open_,create,steps⟩ := blank_steps done free
  exact ⟨h,p,ran,tracks,blankFile,opened,made,open_,create,steps⟩

theorem follows_ok {low : EStateM Fault Pager α} {high : EStateM Fault Heap α} (follows : Simulates low high)
    (tracks : Tracks p h) (read : answer (high h) = .ok a) :
    ∃ q t, low p = .ok a q ∧ high h = .ok a t ∧ Tracks q t := by
  obtain ⟨t,ran⟩ := answer_ok read
  have followed := follows p h tracks
  rw [ran] at followed
  obtain ⟨q,same,tracked⟩ := followed
  exact ⟨q,t,same,ran,tracked⟩

theorem follows_fault {low : EStateM Fault Pager α} {high : EStateM Fault Heap α} (follows : Simulates low high)
    (tracks : Tracks p h) (read : answer (high h) = .error fault) (tracked : ∀ id, fault ≠ .untracked id) :
    ∃ q, low p = .error fault q := by
  obtain ⟨_,ran⟩ := answer_error read
  have followed := follows p h tracks
  rw [ran] at followed
  exact followed.resolve_left fun ⟨id,lost⟩ => tracked id lost

-- Point reads: a Get that answers, answers with the last value written.
theorem get_returns_last_write {ops : List Operation} {found : Option Bytes} (reached : Reached root Always ops p)
    (ran : BTree.get pagerStore root key p = .ok found q) : found = lastValue ops key := by
  obtain ⟨h,tracks,stands⟩ := reached_stands reached
  have keyed : key ≠ [] := by
    rintro rfl
    cases ran
  cases stands with
  | tree holds =>
    have exact := get_exact holds.rooted keyed
    have met : Meets (BTree.get heapStore root key) h (fun found _ => found = lastValue ops key) Ordinary := by
      simp only [Meets,exact]
      exact holds.exact key
    obtain ⟨_,_,same⟩ := simulates_ok (get_simulates root key) tracks ran met ordinary_tracked
    exact same
  | hollow hollow =>
    have read : answer (BTree.get heapStore root key h) = .error (.noEntries root) := by
      rw [hollow_get hollow keyed]
      rfl
    obtain ⟨_,low⟩ := follows_fault (get_simulates root key) tracks read (by
      intro _ same
      cases same)
    rw [ran] at low
    cases low

def rewriteOps : List Operation := [.put [1] [7],.put [2] [8],.delete [2],.put [1] [9]]

theorem get_returns_rewritten_value : ∃ p q, Reached 1 Always rewriteOps p ∧
    BTree.get pagerStore 1 [1] p = .ok (some [9]) q ∧ some [9] = lastValue rewriteOps [1] := by
  obtain ⟨_,p,ran,tracks,reached⟩ := @blank_reached 1 rewriteOps Always (by decide +kernel) (fun _ _ _ _ => trivial)
  have read : answer ((history heapStore rewriteOps >>= fun root => BTree.get heapStore root [1]) blankHeap) =
      .ok (some [9]) := by decide +kernel
  rw [bind_ran ran] at read
  obtain ⟨q,_,got,_⟩ := follows_ok (get_simulates 1 [1]) tracks read
  exact ⟨p,q,reached,got,get_returns_last_write reached got⟩

end Kronos.BTreeRuns
