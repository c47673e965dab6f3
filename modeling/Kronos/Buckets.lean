import Kronos.BTreeSafety

namespace Kronos.Buckets
open ByteRange BTreeNode BTreeDelete BTreeRead BTreeRuns BTreeSafety PageStore BTreePager NodeHeap Effect

def bucketSeparator : UInt8 := 0

inductive BucketFault where
  | invalidName | invalidKey | readOnly | tree (fault : Fault)
  deriving DecidableEq, Repr

structure Tx where
  root : Nat
  writable : Bool

-- The bucket's scope is the prefix of its keys in the database.
structure Bucket where
  tx : Tx
  scope : Bytes

-- A bucket name or a key: some bytes, none of them the separator.
def Plain (part : Bytes) : Prop := part ≠ [] ∧ bucketSeparator ∉ part

instance (part : Bytes) : Decidable (Plain part) := inferInstanceAs (Decidable (_ ∧ _))

def bucketPrefix (parent name : Bytes) : Bytes := parent ++ name ++ [bucketSeparator]

def Tx.bucket (tx : Tx) (name : Bytes) : Except BucketFault Bucket :=
  if ¬ Plain name then .error .invalidName else .ok ⟨tx,bucketPrefix [] name⟩

def Bucket.bucket (b : Bucket) (name : Bytes) : Except BucketFault Bucket :=
  if ¬ Plain name then .error .invalidName else .ok ⟨b.tx,bucketPrefix b.scope name⟩

def Bucket.key (b : Bucket) (key : Bytes) : Except BucketFault Bytes :=
  if ¬ Plain key then .error .invalidKey else .ok (b.scope ++ key)

def onTree (program : KV α) : EStateM BucketFault Pager α := fun p =>
  match program p with
  | .ok a q => .ok a q
  | .error fault q => .error (.tree fault) q

def Tx.get (tx : Tx) (key : Bytes) : EStateM BucketFault Pager (Option Bytes) := onTree (BTree.get pagerStore tx.root key)

def Tx.put (tx : Tx) (key value : Bytes) : EStateM BucketFault Pager Unit :=
  if !tx.writable then throw .readOnly else onTree (BTree.put pagerStore tx.root key value)

def Tx.delete (tx : Tx) (key : Bytes) : EStateM BucketFault Pager Unit :=
  if !tx.writable then throw .readOnly else onTree (BTree.delete pagerStore tx.root key)

def accepted (full : Except BucketFault Bytes) (run : Bytes → EStateM BucketFault Pager α) : EStateM BucketFault Pager α :=
  match full with
  | .error fault => throw fault
  | .ok full => run full

def Bucket.get (b : Bucket) (key : Bytes) : EStateM BucketFault Pager (Option Bytes) := accepted (b.key key) b.tx.get

def Bucket.put (b : Bucket) (key value : Bytes) : EStateM BucketFault Pager Unit :=
  accepted (b.key key) fun full => b.tx.put full value

def Bucket.delete (b : Bucket) (key : Bytes) : EStateM BucketFault Pager Unit := accepted (b.key key) b.tx.delete

-- Put and Delete calls on a bucket are operations under the bucket's own keys.
def Bucket.perform (b : Bucket) : Operation → EStateM BucketFault Pager Unit
  | .put key value => b.put key value
  | .delete key => b.delete key

def rekey (full : Bytes) : Operation → Operation
  | .put _ value => .put full value
  | .delete _ => .delete full

inductive Opened (tx : Tx) : List Bytes → Bucket → Prop where
  | top {name : Bytes} {b : Bucket} (found : tx.bucket name = .ok b) : Opened tx [name] b
  | nested {path : List Bytes} {b inner : Bucket} {name : Bytes} (outer : Opened tx path b)
      (found : b.bucket name = .ok inner) : Opened tx (path ++ [name]) inner

def encodePath (path : List Bytes) : Bytes := path.flatMap fun name => name ++ [bucketSeparator]

variable {tx reader : Tx} {b other : Bucket} {path otherPath : List Bytes} {key otherKey full otherFull name : Bytes}
  {p q : Pager} {h : Heap} {root : Nat} {ops : List Operation}

theorem key_accepted : b.key key = .ok full ↔ Plain key ∧ full = b.scope ++ key := by
  unfold Bucket.key
  by_cases plain : Plain key
  · simp [plain,eq_comm]
  · simp [plain]

theorem Opened.exact (opened : Opened tx path b) :
    b.tx = tx ∧ b.scope = encodePath path ∧ ∀ name ∈ path, Plain name := by
  induction opened with
  | @top name b found =>
    unfold Tx.bucket at found
    split at found
    · cases found
    · rename_i plain
      cases found
      refine ⟨rfl,by simp [encodePath,bucketPrefix],?_⟩
      simpa using plain
  | @nested path b inner name outer found ih =>
    obtain ⟨same,scope,names⟩ := ih
    unfold Bucket.bucket at found
    split at found
    · cases found
    · rename_i plain
      cases found
      refine ⟨same,by simp [encodePath,bucketPrefix,scope],?_⟩
      intro part member
      rcases List.mem_append.mp member with old | new
      · exact names part old
      · rw [List.mem_singleton.mp new]
        exact not_not.mp plain

theorem encode_join (path : List Bytes) (key : Bytes) :
    encodePath path ++ key = [bucketSeparator].intercalate (path ++ [key]) := by
  induction path with
  | nil => simp [encodePath]
  | cons name rest ih =>
    have joined : [bucketSeparator].intercalate (name :: (rest ++ [key])) =
        name ++ bucketSeparator :: [bucketSeparator].intercalate (rest ++ [key]) := by
      cases shape : rest ++ [key] with
      | nil => simp at shape
      | cons => simp [List.intercalate]
    rw [List.cons_append,joined,← ih]
    simp [encodePath]

theorem encode_split (names : ∀ name ∈ path, Plain name) (plain : Plain key) :
    List.splitOn bucketSeparator (encodePath path ++ key) = path ++ [key] := by
  rw [encode_join]
  apply List.splitOn_intercalate
  · intro part member
    rcases List.mem_append.mp member with old | new
    · exact (names part old).2
    · rw [List.mem_singleton.mp new]
      exact plain.2
  · simp

theorem keys_apart (opened : Opened tx path b) (others : Opened reader otherPath other)
    (used : b.key key = .ok full) (otherUsed : other.key otherKey = .ok otherFull)
    (different : (path,key) ≠ (otherPath,otherKey)) : full ≠ otherFull := by
  obtain ⟨_,scope,names⟩ := opened.exact
  obtain ⟨_,otherScope,otherNames⟩ := others.exact
  obtain ⟨plain,rfl⟩ := key_accepted.mp used
  obtain ⟨otherPlain,rfl⟩ := key_accepted.mp otherUsed
  intro same
  rw [scope,otherScope] at same
  have parts := congrArg (List.splitOn bucketSeparator) same
  rw [encode_split names plain,encode_split otherNames otherPlain] at parts
  obtain ⟨samePath,sameKey⟩ := List.append_inj' parts rfl
  exact different (Prod.ext samePath (List.singleton_inj.mp sameKey))

def reply (result : EStateM.Result BucketFault Pager α) : Except BucketFault α :=
  match result with
  | .ok a _ => .ok a
  | .error fault _ => .error fault

theorem get_reply (used : b.key key = .ok full) :
    reply (b.get key p) = (answer (BTree.get pagerStore b.tx.root full p)).mapError .tree := by
  unfold Bucket.get
  rw [used]
  simp only [accepted,Tx.get,onTree]
  cases BTree.get pagerStore b.tx.root full p <;> rfl

theorem onTree_ok {program : KV α} {a : α} : onTree program p = .ok a q ↔ program p = .ok a q := by
  unfold onTree
  cases program p <;> simp

theorem perform_tree (used : b.key op.key = .ok full) : b.perform op p = .ok () q ↔
    b.tx.writable = true ∧ BTreeRuns.perform pagerStore b.tx.root (rekey full op) p = .ok () q := by
  have guarded (program : KV Unit) : (if !b.tx.writable then throw .readOnly else onTree program :
      EStateM BucketFault Pager Unit) p = .ok () q ↔ b.tx.writable = true ∧ program p = .ok () q := by
    cases b.tx.writable with
    | true => simp [onTree_ok]
    | false =>
      constructor
      · intro ran
        cases ran
      · intro never
        cases never.1
  cases op with
  | put key =>
    simp only [Operation.key] at used
    simp only [Bucket.perform,Bucket.put,used,accepted,Tx.put]
    exact guarded _
  | delete key =>
    simp only [Operation.key] at used
    simp only [Bucket.perform,Bucket.delete,used,accepted,Tx.delete]
    exact guarded _

theorem holds_get (tracks : Tracks p h) (holds : Holds h root ops leaves) (keyed : key ≠ []) :
    answer (BTree.get pagerStore root key p) = .ok (lastValue ops key) := by
  have read : answer (BTree.get heapStore root key h) = .ok (lastValue ops key) := by
    rw [get_exact holds.rooted keyed,← holds.exact key]
    rfl
  obtain ⟨_,_,got,_⟩ := follows_ok (get_simulates root key) tracks read
  rw [got]
  rfl

theorem hollow_reads (tracks : Tracks p h) (hollow : Hollow h root) (keyed : key ≠ []) :
    answer (BTree.get pagerStore root key p) = .error (.noEntries root) := by
  have read : answer (BTree.get heapStore root key h) = .error (.noEntries root) := by
    rw [hollow_get hollow keyed]
    rfl
  obtain ⟨_,got⟩ := follows_fault (get_simulates root key) tracks read nofun
  rw [got]
  rfl

theorem rekey_key (full : Bytes) (op : Operation) : (rekey full op).key = full := by
  cases op <;> rfl

-- A read of another key after an operation: the same answer, unless the
-- operation deleted the last live key from under a root branch.
theorem other_reads (reached : Reached root Always ops p) (ran : BTreeRuns.perform pagerStore root op p = .ok () q)
    (apart : op.key ≠ key) (keyed : key ≠ []) :
    answer (BTree.get pagerStore root key q) = answer (BTree.get pagerStore root key p) ↔ Sparing root ops p op := by
  obtain ⟨_,tracks,stands⟩ := reached_stands reached
  cases stands with
  | hollow hollow =>
    obtain ⟨_,_,never⟩ := simulates_ok (perform_simulates root op) tracks ran (hollow_perform hollow op) stuck_tracked
    exact never.elim
  | tree holds =>
    rw [holds_get tracks holds keyed]
    constructor
    · intro same
      obtain ⟨_,tracked,after⟩ := perform_stands tracks (.tree holds) ran
      cases after with
      | tree now => exact broken_step tracks holds ran (rooted_safe tracked now.rooted)
      | hollow gone =>
        rw [hollow_reads tracked gone keyed] at same
        cases same
    · intro sparing
      obtain ⟨_,_,tracked,now⟩ := sparing_step tracks holds sparing ran
      rw [holds_get tracked now keyed,lastValue_snoc,if_neg apart]

-- Buckets: different pairs have different database keys, and an operation on one
-- pair leaves the reads of another alone exactly when it is sparing.
theorem bucket_pairs_isolated_exactly {op : Operation} (reached : Reached tx.root Always ops p)
    (opened : Opened tx path b) (others : Opened reader otherPath other) (same : reader.root = tx.root)
    (used : b.key op.key = .ok full) (otherUsed : other.key otherKey = .ok otherFull)
    (different : (path,op.key) ≠ (otherPath,otherKey)) (ran : b.perform op p = .ok () q) : full ≠ otherFull ∧
      (reply (other.get otherKey q) = reply (other.get otherKey p) ↔ Sparing tx.root ops p (rekey full op)) := by
  have apart := keys_apart opened others used otherUsed different
  obtain ⟨ofTx,_,_⟩ := opened.exact
  obtain ⟨ofReader,_,_⟩ := others.exact
  have done := ((perform_tree used).mp ran).2
  rw [ofTx] at done
  obtain ⟨plain,_⟩ := key_accepted.mp otherUsed
  have keyed : otherFull ≠ [] := by
    obtain ⟨_,rfl⟩ := key_accepted.mp otherUsed
    simp [plain.1]
  refine ⟨apart,?_⟩
  rw [get_reply otherUsed,get_reply otherUsed,ofReader,same,
    ← other_reads reached done (by rw [rekey_key]; exact apart) keyed]
  have wrapped {first second : Except Fault (Option Bytes)} :
      first.mapError BucketFault.tree = second.mapError BucketFault.tree ↔ first = second := by
    cases first <;> cases second <;> simp [Except.mapError]
  exact wrapped

-- The buckets `b` and `c` of a database whose tree starts at page 1, and the
-- bucket `c` nested in `b`.
def bucketB : Bucket := ⟨⟨1,true⟩,[98,0]⟩
def bucketC : Bucket := ⟨⟨1,true⟩,[99,0]⟩
def bucketBC : Bucket := ⟨⟨1,true⟩,[98,0,99,0]⟩

theorem bucketB_opened : Opened ⟨1,true⟩ [[98]] bucketB := .top rfl
theorem bucketBC_opened : Opened ⟨1,true⟩ [[98],[99]] bucketBC := .nested bucketB_opened rfl

theorem put_beside_nested_bucket : ∃ p q, Reached 1 Always [.put [98,0,99,0,1] [7]] p ∧
    bucketB.perform (.put [1] [8]) p = .ok () q ∧ reply (bucketBC.get [1] q) = reply (bucketBC.get [1] p) := by
  obtain ⟨_,p,ran,tracks,reached⟩ := @blank_reached 1 [.put [98,0,99,0,1] [7]] Always (by decide +kernel)
    (fun _ _ _ _ => trivial)
  have added : answer ((history heapStore [.put [98,0,99,0,1] [7]] >>= fun root =>
      BTreeRuns.perform heapStore root (.put [98,0,1] [8])) blankHeap) = .ok () := by decide +kernel
  rw [bind_ran ran] at added
  obtain ⟨q,_,low,_⟩ := follows_ok (perform_simulates 1 _) tracks added
  have used : bucketB.key (Operation.put [1] [8]).key = .ok [98,0,1] := rfl
  have otherUsed : bucketBC.key [1] = .ok [98,0,99,0,1] := rfl
  have done : bucketB.perform (.put [1] [8]) p = .ok () q := (perform_tree used).mpr ⟨rfl,low⟩
  have isolated := bucket_pairs_isolated_exactly reached bucketB_opened bucketBC_opened rfl used otherUsed (by decide) done
  exact ⟨p,q,reached,done,isolated.2.mpr trivial⟩

-- Runs over long keys recurse as deep as a key is long.
set_option maxRecDepth 20000

-- Keys of 1998 bytes in bucket `b`, so that a page holds two of them.
def broad (byte : UInt8) : Bytes := byte :: List.replicate 1997 1

def broadOps : List Operation := [.put (98 :: 0 :: broad 1) [],.put (98 :: 0 :: broad 2) [],.put (98 :: 0 :: broad 3) [],
  .put (98 :: 0 :: broad 4) [],.put (98 :: 0 :: broad 5) [],.delete (98 :: 0 :: broad 2),.delete (98 :: 0 :: broad 3),
  .delete (98 :: 0 :: broad 4),.delete (98 :: 0 :: broad 5)]

-- The last key of bucket `b` is deleted, and the reads of bucket `c` fail.
theorem delete_breaks_other_bucket : ∃ p q, Reached 1 Always broadOps p ∧
    bucketB.perform (.delete (broad 1)) p = .ok () q ∧ reply (bucketC.get [1] p) = .ok none ∧
    reply (bucketC.get [1] q) = .error (.tree (.noEntries 1)) := by
  have facts : answer (history heapStore broadOps blankHeap) = .ok 1 ∧
      answer ((history heapStore broadOps >>= fun root =>
        BTreeRuns.perform heapStore root (.delete (98 :: 0 :: broad 1))) blankHeap) = .ok () ∧
      answer ((history heapStore broadOps >>= fun root => BTree.get heapStore root [99,0,1]) blankHeap) = .ok none ∧
      answer ((history heapStore broadOps >>= fun root => BTreeRuns.perform heapStore root (.delete (98 :: 0 :: broad 1)) >>=
        fun _ => BTree.get heapStore root [99,0,1]) blankHeap) = .error (.noEntries 1) ∧
      Plain (broad 1) := by decide +kernel
  obtain ⟨made,deleted,before,after,plain⟩ := facts
  obtain ⟨_,p,ran,tracks,reached⟩ := @blank_reached 1 broadOps Always made (fun _ _ _ _ => trivial)
  rw [bind_ran ran] at deleted before after
  obtain ⟨q,_,low,high,tracked⟩ := follows_ok (perform_simulates 1 _) tracks deleted
  rw [bind_ran high] at after
  have used : bucketB.key (Operation.delete (broad 1)).key = .ok (98 :: 0 :: broad 1) :=
    key_accepted.mpr ⟨plain,rfl⟩
  have otherUsed : bucketC.key [1] = .ok [99,0,1] := rfl
  refine ⟨p,q,reached,(perform_tree used).mpr ⟨rfl,low⟩,?_,?_⟩
  · obtain ⟨_,_,got,_⟩ := follows_ok (get_simulates 1 [99,0,1]) tracks before
    rw [get_reply otherUsed]
    change (answer (BTree.get pagerStore 1 [99,0,1] p)).mapError BucketFault.tree = _
    rw [got]
    rfl
  · obtain ⟨_,got⟩ := follows_fault (get_simulates 1 [99,0,1]) tracked after nofun
    rw [get_reply otherUsed]
    change (answer (BTree.get pagerStore 1 [99,0,1] q)).mapError BucketFault.tree = _
    rw [got]
    rfl

end Kronos.Buckets
