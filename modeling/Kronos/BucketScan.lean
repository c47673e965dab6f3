import Kronos.Buckets
import Kronos.PrefixRange

namespace Kronos.BucketScan
open ByteRange BTreeNode BTree BTreeRuns BTreeChain PageStore BTreePager Effect PrefixRange Buckets

-- The loop over the bytes of a prefix, from the last one on: the first byte that
-- can be raised is raised and the bytes after it are cut off.
def carry : Bytes → Option Bytes
  | [] => none
  | byte :: before => if byte ≠ 0xff then some (before.reverse ++ [byte + 1]) else carry before

def prefixEnd (bytes : Bytes) : Option Bytes := carry bytes.reverse

structure BucketIterator where
  bucket : Bucket
  it : Iterator

def BucketIterator.valid (it : BucketIterator) : Bool :=
  it.it.valid && it.it.current.any fun entry => it.bucket.scope.isPrefixOf entry.key

def BucketIterator.key (it : BucketIterator) (entry : Entry) : Bytes := entry.key.drop it.bucket.scope.length

def BucketIterator.next (it : BucketIterator) : KV BucketIterator := do
  let moved ← BTree.next pagerStore it.it
  return {it with it := moved}

-- `for it.Valid() { use(it.Key(), it.Value()); it.Next() }`, `count` turns at most.
def drive : Nat → BucketIterator → KV (List (Bytes × Bytes) × BucketIterator)
  | 0,it => return ([],it)
  | count+1,it =>
    match it.valid,it.it.current with
    | true,some entry => do
      let moved ← it.next
      let (rest,last) ← drive count moved
      return ((it.key entry,entry.value) :: rest,last)
    | _,_ => return ([],it)

def scan (b : Bucket) (start : Bytes) (stop : Option Bytes) : EStateM BucketFault Pager BucketIterator :=
  accepted (b.key start) fun startKey =>
    let from_ (endKey : Option Bytes) : EStateM BucketFault Pager BucketIterator :=
      onTree do
        let it ← BTree.scan pagerStore b.tx.root startKey endKey
        return ⟨b,it⟩
    match stop with
    | none => from_ (prefixEnd b.scope)
    | some stop => accepted (b.key stop) fun endKey => from_ (some endKey)

variable {tx : Tx} {b inner : Bucket} {path : List Bytes} {start key value full : Bytes} {p q r : Pager}
  {ops : List Operation}

theorem prefixEnd_snoc (front : Bytes) (byte : UInt8) :
    prefixEnd (front ++ [byte]) = if byte ≠ 0xff then some (front ++ [byte + 1]) else prefixEnd front := by
  simp [prefixEnd,carry]

theorem byte_next (small : byte ≠ 0xff) (x : UInt8) : x < byte + 1 ↔ x ≤ byte := by
  have below : byte.toNat < 255 := by
    have bound := byte.toNat_lt
    have other : byte.toNat ≠ 255 := fun same => small (UInt8.toNat_inj.mp same)
    omega
  rw [UInt8.lt_iff_toNat_lt,UInt8.le_iff_toNat_le,UInt8.toNat_add]
  change x.toNat < (byte.toNat + 1) % 256 ↔ _
  omega

theorem prefixEnd_exact (front key : Bytes) :
    (front ≤ key ∧ ∀ bound, prefixEnd front = some bound → key < bound) ↔ front <+: key := by
  induction front using List.reverseRecOn with
  | nil => simp [prefixEnd,carry,not_lt.mp (List.not_lt_nil key)]
  | append_singleton _ byte ih =>
    rw [prefixEnd_snoc]
    by_cases top : byte = 0xff
    · have greatest : ∀ x : UInt8, x ≤ byte := by
        intro x
        have bound := x.toNat_lt
        rw [top,UInt8.le_iff_toNat_le]
        change x.toNat ≤ 255
        omega
      rw [if_neg (not_not.mpr top),← greatest_exact greatest,← ih]
      constructor
      · rintro ⟨above,below⟩
        exact ⟨above,le_trans (le_append _ _) above,below⟩
      · rintro ⟨above,_,below⟩
        exact ⟨above,below⟩
    · rw [if_pos top,← between_exact (byte_next top)]
      simp

theorem drive_exact (ran : BTree.drive pagerStore count it p = .ok (yielded,last) q)
    (inside : ∀ item ∈ yielded, b.scope <+: item.1) :
    drive count ⟨b,it⟩ p = .ok (yielded.map (fun item => (item.1.drop b.scope.length,item.2)),⟨b,last⟩) q := by
  induction count generalizing it p yielded with
  | zero => cases ran; rfl
  | succ _ ih =>
    unfold BTree.drive at ran
    unfold drive
    have stopped (invalid : it.valid = false) : (BucketIterator.mk b it).valid = false := by
      simp [BucketIterator.valid,invalid]
    cases current : it.current with
    | none =>
      have invalid : it.valid = false := by simp [Iterator.valid,current]
      simp only [current,invalid] at ran
      simp only [stopped invalid]
      cases ran
      rfl
    | some entry =>
      cases valid : it.valid with
      | false =>
        simp only [current,valid] at ran
        simp only [stopped valid]
        cases ran
        rfl
      | true =>
        simp only [current,valid] at ran
        obtain ⟨moved,s,stepped,more⟩ := bind_ok.mp ran
        obtain ⟨⟨_,_⟩,_,driven,returned⟩ := bind_ok.mp more
        cases returned
        have within : b.scope <+: entry.key := inside (entry.key,entry.value) (by simp)
        have going : (BucketIterator.mk b it).valid = true := by
          simp [BucketIterator.valid,valid,current,List.isPrefixOf_iff_prefix.mpr within]
        have later := ih driven fun item member => inside item (by simp [member])
        simp only [going]
        refine bind_ok.mpr ⟨⟨b,moved⟩,s,?_,?_⟩
        · exact bind_ok.mpr ⟨moved,s,stepped,rfl⟩
        · exact bind_ok.mpr ⟨_,_,later,rfl⟩

structure OwnListing (ops : List Operation) (b : Bucket) (start : Bytes) (yielded : List (Bytes × Bytes)) : Prop where
  ascending : yielded.Pairwise (fun first second => first.1 < second.1)
  exact : ∀ key value, (key,value) ∈ yielded ↔ Plain key ∧ lastValue ops (b.scope ++ key) = some value ∧ start ≤ key

-- Scan(start, nil) succeeds, its iterator yields that listing and ends without
-- an error, and Get finds every key it yields.
def ScansOwn (ops : List Operation) (p : Pager) (b : Bucket) (start : Bytes) : Prop :=
  ∃ first q yielded turns, scan b start none p = .ok first q ∧ OwnListing ops b start yielded ∧
    (∀ count, turns ≤ count → ∃ last r, drive count first q = .ok (yielded,last) r ∧ last.valid = false ∧
      last.it.err = none) ∧
    ∀ item ∈ yielded, reply (b.get item.1 p) = .ok (some item.2)

def Built (tx : Tx) (ops : List Operation) : Prop :=
  ∀ op ∈ ops, ∃ path b key, Opened tx path b ∧ b.key key = .ok op.key

-- No bucket nested in this one has a live key at or after the start.
def FlatFrom (tx : Tx) (ops : List Operation) (path : List Bytes) (from_ : Bytes) : Prop :=
  ∀ names inner key full, names ≠ [] → Opened tx (path ++ names) inner → inner.key key = .ok full →
    lastValue ops full ≠ none → full < from_

theorem live_built (built : Built tx ops) (live : lastValue ops full ≠ none) :
    ∃ path b key, Opened tx path b ∧ b.key key = .ok full := by
  unfold lastValue at live
  cases found : ops.reverse.find? (fun op => decide (op.key = full)) with
  | none => simp [found] at live
  | some op =>
    have same : op.key = full := by simpa using List.find?_some found
    have member : op ∈ ops := List.mem_reverse.mp (List.mem_of_find?_eq_some found)
    rw [← same]
    exact built op member

theorem split_path (names : ∀ name ∈ path, Plain name) (rest : Bytes) :
    List.splitOn bucketSeparator (encodePath path ++ rest) = path ++ List.splitOn bucketSeparator rest := by
  induction path with
  | nil => rfl
  | cons name others ih =>
    obtain ⟨plain,later⟩ := List.forall_mem_cons.mp names
    have first : List.splitOn bucketSeparator name = [name] := @encode_split [] name nofun plain
    have shape : encodePath (name :: others) ++ rest = name ++ bucketSeparator :: (encodePath others ++ rest) := by
      simp [encodePath]
    rw [shape]
    unfold List.splitOn at first ih ⊢
    rw [List.splitOnP_append_cons _ _ (by simp),first,ih later]
    rfl

-- A key of the database that starts with a bucket's prefix belongs to the bucket
-- or to one nested in it.
theorem scope_below (names : ∀ name ∈ path, Plain name) (otherNames : ∀ name ∈ other, Plain name) (plain : Plain key)
    (same : encodePath path ++ rest = encodePath other ++ key) :
    ∃ names, other = path ++ names ∧ rest = encodePath names ++ key := by
  have parts := congrArg (List.splitOn bucketSeparator) same
  rw [split_path names rest,encode_split otherNames plain] at parts
  have some : List.splitOn bucketSeparator rest ≠ [] := List.splitOn_ne_nil _ _
  obtain ⟨names,rfl⟩ : path <+: other := by
    have first : path <+: other ++ [key] := ⟨_,parts⟩
    rcases List.prefix_concat_iff.mp (by simpa using first) with whole | inside
    · rw [whole] at parts
      exact absurd (List.append_right_eq_self.mp parts) some
    · exact inside
  refine ⟨names,rfl,?_⟩
  rw [encodePath,encodePath,List.flatMap_append,List.append_assoc] at same
  exact List.append_cancel_left same

theorem scan_ran (exact : ExactScans tx.root ops p) (opened : Opened tx path b) (plain : Plain start) :
    ∃ first q yielded turns, scan b start none p = .ok ⟨b,first⟩ q ∧
      Listing ops (b.scope ++ start) (prefixEnd b.scope) yielded ∧ (∀ item ∈ yielded, b.scope <+: item.1) ∧
      ∀ count, turns ≤ count → ∃ last r, drive count ⟨b,first⟩ q =
        .ok (yielded.map (fun item => (item.1.drop b.scope.length,item.2)),⟨b,last⟩) r ∧
        last.valid = false ∧ last.err = none := by
  obtain ⟨ofTx,_,_⟩ := opened.exact
  obtain ⟨first,q,yielded,turns,scanned,listing,driven⟩ := exact (b.scope ++ start) (prefixEnd b.scope)
  have inside : ∀ item ∈ yielded, b.scope <+: item.1 := by
    intro item member
    obtain ⟨_,above,below⟩ := (listing.exact item.1 item.2).mp member
    exact (prefixEnd_exact b.scope item.1).mp ⟨le_trans (le_append _ _) above,below⟩
  refine ⟨first,q,yielded,turns,?_,listing,inside,fun count enough => ?_⟩
  · have used : b.key start = .ok (b.scope ++ start) := key_accepted.mpr ⟨plain,rfl⟩
    unfold scan
    rw [used,ofTx]
    exact onTree_ok.mpr (bind_ok.mpr ⟨first,q,scanned,rfl⟩)
  · obtain ⟨last,r,ran,ended,clean⟩ := driven count enough
    exact ⟨last,r,drive_exact ran inside,ended,clean⟩

theorem stored_reply (reached : Reached tx.root Always ops p) (opened : Opened tx path b) (plain : Plain key)
    (live : lastValue ops (b.scope ++ key) = some value) : reply (b.get key p) = .ok (some value) := by
  obtain ⟨ofTx,_,_⟩ := opened.exact
  have used : b.key key = .ok (b.scope ++ key) := key_accepted.mpr ⟨plain,rfl⟩
  obtain ⟨_,tracks,stands⟩ := reached_stands reached
  rw [get_reply used,ofTx]
  cases stands with
  | tree holds =>
    rw [holds_get tracks holds (by simp [plain.1]),live]
    rfl
  | hollow _ empty =>
    rw [empty] at live
    cases live

theorem listing_own (exact : Listing ops (b.scope ++ start) (prefixEnd b.scope) yielded)
    (inside : ∀ item ∈ yielded, b.scope <+: item.1) (opened : Opened tx path b) (built : Built tx ops)
    (flat : FlatFrom tx ops path (b.scope ++ start)) :
    OwnListing ops b start (yielded.map (fun item => (item.1.drop b.scope.length,item.2))) where
  ascending := by
    rw [List.pairwise_map]
    refine exact.ascending.imp_of_mem ?_
    intro first second one two less
    obtain ⟨_,sameLeft⟩ := inside first one
    obtain ⟨_,sameRight⟩ := inside second two
    rw [← sameLeft,← sameRight] at less ⊢
    simpa using append_lt_append.mp less
  exact := by
    obtain ⟨_,scope,names⟩ := opened.exact
    intro key value
    constructor
    · intro member
      obtain ⟨item,listed,same⟩ := List.mem_map.mp member
      obtain ⟨_,whole⟩ := inside item listed
      obtain ⟨live,above,_⟩ := (exact.exact item.1 item.2).mp listed
      rw [← whole] at live above same
      simp only [List.drop_left,Prod.mk.injEq] at same
      obtain ⟨rfl,rfl⟩ := same
      refine ⟨?_,live,append_le_append.mp above⟩
      obtain ⟨_,owner,last,owned,used⟩ := live_built built (by rw [live]; simp)
      obtain ⟨_,otherScope,otherNames⟩ := owned.exact
      obtain ⟨plain,joined⟩ := key_accepted.mp used
      rw [scope,otherScope] at joined
      obtain ⟨deeper,split,tail⟩ := scope_below names otherNames plain joined
      by_cases direct : deeper = []
      · subst direct
        rw [tail]
        exact plain
      · subst split
        exact absurd (flat deeper owner last _ direct owned used (by rw [live]; simp)) (not_lt.mpr above)
    · rintro ⟨_,live,above⟩
      refine List.mem_map.mpr ⟨(b.scope ++ key,value),(exact.exact _ _).mpr ⟨live,append_le_append.mpr above,?_⟩,by simp⟩
      exact ((prefixEnd_exact b.scope (b.scope ++ key)).mpr (List.prefix_append _ _)).2

-- Bucket scans: they yield the bucket's own keys exactly when the start is a key
-- the bucket accepts and no nested bucket has a live key from there on.
theorem scan_own_exactly_when_flat (reached : Reached tx.root Always ops p) (exact : ExactScans tx.root ops p)
    (built : Built tx ops) (opened : Opened tx path b) (start : Bytes) :
    ScansOwn ops p b start ↔ Plain start ∧ FlatFrom tx ops path (b.scope ++ start) := by
  constructor
  · rintro ⟨first,q,_,turns,scanned,own,driven,_⟩
    have plain : Plain start := by
      by_contra refused
      unfold scan Bucket.key at scanned
      rw [if_pos refused] at scanned
      cases scanned
    refine ⟨plain,?_⟩
    obtain ⟨_,_,listed,moreTurns,ran,listing,_,drives⟩ := scan_ran exact opened plain
    rw [scanned] at ran
    cases ran
    obtain ⟨last,r,one,_,_⟩ := driven (max turns moreTurns) (le_max_left _ _)
    obtain ⟨_,_,two,_,_⟩ := drives (max turns moreTurns) (le_max_right _ _)
    rw [one] at two
    cases two
    intro names inner key full deeper below used live
    by_contra later
    obtain ⟨_,scope,_⟩ := opened.exact
    obtain ⟨_,innerScope,_⟩ := below.exact
    obtain ⟨_,rfl⟩ := key_accepted.mp used
    have nested : inner.scope ++ key = b.scope ++ (encodePath names ++ key) := by
      rw [innerScope,scope,encodePath,encodePath,List.flatMap_append,List.append_assoc]
      rfl
    rw [nested] at live later
    obtain ⟨value,stored⟩ := Option.ne_none_iff_exists'.mp live
    have yields : (b.scope ++ (encodePath names ++ key),value) ∈ listed :=
      (listing.exact _ _).mpr ⟨stored,not_lt.mp later,
        ((prefixEnd_exact b.scope _).mpr (List.prefix_append _ _)).2⟩
    have shown : (encodePath names ++ key,value) ∈ listed.map (fun item => (item.1.drop b.scope.length,item.2)) :=
      List.mem_map.mpr ⟨_,yields,by simp⟩
    obtain ⟨⟨_,clean⟩,_,_⟩ := (own.exact _ _).mp shown
    apply clean
    cases names with
    | nil => exact absurd rfl deeper
    | cons => simp [encodePath]
  · rintro ⟨plain,flat⟩
    obtain ⟨first,q,_,turns,scanned,listing,inside,driven⟩ := scan_ran exact opened plain
    have own := listing_own listing inside opened built flat
    refine ⟨⟨b,first⟩,q,_,turns,scanned,own,?_,?_⟩
    · intro count enough
      obtain ⟨last,r,ran,ended,clean⟩ := driven count enough
      exact ⟨⟨b,last⟩,r,ran,by simp [BucketIterator.valid,ended],clean⟩
    · intro item member
      obtain ⟨direct,live,_⟩ := (own.exact item.1 item.2).mp member
      exact stored_reply reached opened direct live

theorem put_gentle (root : Nat) (key value : Bytes) (done : List Operation) (s : Pager) :
    ∀ op ∈ [Operation.put key value], Gentle root done s op := by
  intro op member
  rw [List.mem_singleton.mp member]
  trivial

theorem single_live (live : lastValue [.put key value] full ≠ none) : full = key := by
  by_contra other
  exact live (by simp [lastValue,Operation.key,Ne.symm other])

theorem bucket_scan_without_nested_keys : ∃ p, Reached 1 Always [.put [98,0,1] [7]] p ∧
    Built ⟨1,true⟩ [.put [98,0,1] [7]] ∧ FlatFrom ⟨1,true⟩ [.put [98,0,1] [7]] [[98]] [98,0,1] ∧
    ScansOwn [.put [98,0,1] [7]] p bucketB [1] := by
  obtain ⟨_,p,_,_,reached⟩ := @blank_reached 1 [.put [98,0,1] [7]] (Gentle 1) (by decide +kernel) (put_gentle 1 _ _)
  have built : Built ⟨1,true⟩ [.put [98,0,1] [7]] := by
    intro op member
    rw [List.mem_singleton.mp member]
    exact ⟨[[98]],bucketB,[1],bucketB_opened,rfl⟩
  have flat : FlatFrom ⟨1,true⟩ [.put [98,0,1] [7]] [[98]] [98,0,1] := by
    intro names inner key full deeper opened used live
    have same : full = [98,0,1] := single_live live
    have own : bucketB.key [1] = .ok [98,0,1] := rfl
    refine absurd same (keys_apart opened bucketB_opened used own ?_)
    intro equal
    exact deeper (by simpa using congrArg Prod.fst equal)
  exact ⟨p,reached.always,built,flat,(@scan_own_exactly_when_flat ⟨1,true⟩ bucketB _ _ _ reached.always
    (gentle_scans reached) built bucketB_opened [1]).mpr ⟨by decide,flat⟩⟩

-- A key of the bucket `c` nested in `b` comes up in a scan of `b` under a local
-- key that Get refuses.
theorem bucket_scan_yields_nested_key : ∃ p first q yielded turns, Reached 1 Always [.put [98,0,99,0,1] [7]] p ∧
    ExactScans 1 [.put [98,0,99,0,1] [7]] p ∧ Built ⟨1,true⟩ [.put [98,0,99,0,1] [7]] ∧
    scan bucketB [1] none p = .ok first q ∧ (∃ last r, drive turns first q = .ok (yielded,last) r ∧ last.valid = false) ∧
    ([99,0,1],[7]) ∈ yielded ∧ reply (bucketB.get [99,0,1] p) = .error .invalidKey := by
  obtain ⟨_,p,_,_,reached⟩ := @blank_reached 1 [.put [98,0,99,0,1] [7]] (Gentle 1) (by decide +kernel) (put_gentle 1 _ _)
  have built : Built ⟨1,true⟩ [.put [98,0,99,0,1] [7]] := by
    intro op member
    rw [List.mem_singleton.mp member]
    exact ⟨[[98],[99]],bucketBC,[1],bucketBC_opened,rfl⟩
  have exact := gentle_scans reached
  have plain : Plain [1] := by decide
  obtain ⟨_,q,yielded,turns,scanned,listing,_,driven⟩ := @scan_ran ⟨1,true⟩ bucketB _ _ _ _ exact bucketB_opened plain
  obtain ⟨_,r,ran,ended,_⟩ := driven turns le_rfl
  have yields : ([98,0,99,0,1],[7]) ∈ yielded :=
    (listing.exact _ _).mpr ⟨by decide,by decide,by decide⟩
  refine ⟨p,_,q,_,turns,reached.always,exact,built,scanned,⟨_,r,ran,by simp [BucketIterator.valid,ended]⟩,
    List.mem_map.mpr ⟨_,yields,rfl⟩,rfl⟩

end Kronos.BucketScan
