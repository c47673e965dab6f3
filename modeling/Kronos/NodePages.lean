import Kronos.BTreeSafety

namespace Kronos.NodePages
open ByteRange BTreeNode PageStore

-- page[low:high], stopped at the end of the page. Go lets a slice of the mapping
-- reach on into the next page; here such a read is a fault like any other.
def readRange (page : Bytes) (low high : Nat) : Except Fault Bytes :=
  if low ≤ high ∧ high ≤ page.length then .ok (slice page low (high - low)) else .error .indexOutOfRange

def readEntry (id : Nat) (page : Bytes) (index : Nat) : Except Fault Entry := do
  let base := entryBase index
  let keyOff := getLE (← readRange page base (base+2))
  let keyLen := getLE (← readRange page (base+2) (base+4))
  let valOff := getLE (← readRange page (base+4) (base+6))
  let valLen := getLE (← readRange page (base+6) (base+8))
  let child := getLE (← readRange page (base+8) (base+16))
  if keyLen = 0 then throw (.entryEmptyKey id index)
  else if keyOff + keyLen > pageSize then throw (.keyOutOfRange id index)
  else if valOff + valLen > pageSize then throw (.valueOutOfRange id index)
  else
    let key ← readRange page keyOff (keyOff+keyLen)
    let value ← readRange page valOff (valOff+valLen)
    return ⟨key,value,child⟩

def readEntries (id : Nat) (typ : NodeType) (page : Bytes) : Nat → Nat → List Entry → Except Fault (List Entry)
  | 0,_,entries => .ok entries
  | left+1,index,entries => do
    let entry ← readEntry id page index
    if entries.getLast?.any (fun previous => decide (entry.key ≤ previous.key)) then throw (.keysOutOfOrder id)
    else if typ = .branch ∧ entry.child = 0 then throw (.entryNoChild id index)
    else readEntries id typ page left (index+1) (entries ++ [entry])

-- decodeNode over any bytes, with every read of the page checked.
def readPage (id : Nat) (page : Bytes) : Except Fault Node := do
  if page.length ≠ pageSize then throw (.wrongPageSize id page.length)
  else
    let first ← readRange page 0 1
    let typ ← decodeType id (first.headD 0)
    let count := getLE (← readRange page 2 4)
    let next := getLE (← readRange page 8 16)
    if nodeHeaderSize + count * nodeEntrySize > pageSize then throw (.directoryOverflow id)
    else
      let entries ← readEntries id typ page count 0 []
      return ⟨id,typ,next,entries⟩

variable {id index low high : Nat}

theorem readRange_exact (page : Page) (order : low ≤ high) (inside : high ≤ pageSize) :
    readRange page.1 low high = .ok (page.slice low (high - low)) := by
  rw [readRange,if_pos ⟨order,by rw [page.2]; exact inside⟩]
  rfl

-- A directory slot inside the page is read without leaving it, and the key and
-- the value are read only once their ends were checked.
theorem readEntry_exact (page : Page) (slot : entryBase index + nodeEntrySize ≤ pageSize) :
    readEntry id page.1 index = decodeEntry id page index := by
  simp only [nodeEntrySize] at slot
  have field (start size : Nat) (within : start + size ≤ 16) :
      readRange page.1 (entryBase index + start) (entryBase index + start + size) =
        .ok (page.slice (entryBase index + start) size) := by
    rw [readRange_exact page (by omega) (by omega),Nat.add_sub_cancel_left]
  have keyOff := field 0 2 (by decide)
  have keyLen := field 2 2 (by decide)
  have valOff := field 4 2 (by decide)
  have valLen := field 6 2 (by decide)
  have child := field 8 8 (by decide)
  rw [Nat.add_zero] at keyOff
  simp only [readEntry,keyOff,keyLen,valOff,valLen,child,bind,Except.bind,decodeEntry,uint16At,uint64At]
  refine ite_congr rfl (fun _ => rfl) fun _ => ite_congr rfl (fun _ => rfl) fun keyEnd =>
    ite_congr rfl (fun _ => rfl) fun valueEnd => ?_
  rw [readRange_exact page (by omega) (by omega),readRange_exact page (by omega) (by omega),Nat.add_sub_cancel_left,
    Nat.add_sub_cancel_left]
  rfl

theorem readEntries_exact (page : Page) (slots : entryBase (index + left) ≤ pageSize) :
    readEntries id typ page.1 left index entries = decodeEntries id typ page left index entries := by
  induction left generalizing index entries with
  | zero => rfl
  | succ _ ih =>
    have slot : entryBase index + nodeEntrySize ≤ pageSize := by
      simp only [entryBase,nodeHeaderSize,nodeEntrySize] at slots ⊢
      omega
    simp only [readEntries,decodeEntries,readEntry_exact page slot]
    cases decodeEntry id page index with
    | error => rfl
    | ok =>
      refine ite_congr rfl (fun _ => rfl) fun _ => ite_congr rfl (fun _ => rfl) fun _ => ?_
      exact ih (by rw [Nat.add_right_comm]; exact slots)

theorem readPage_exact (page : Page) : readPage id page.1 = decodeNode id page := by
  have first := readRange_exact page (Nat.zero_le 1) (by decide)
  have count := @readRange_exact 2 4 page (by decide) (by decide)
  have next := @readRange_exact 8 16 page (by decide) (by decide)
  simp only [readPage,decodeNode,page.2,first,count,next,ne_eq,not_true_eq_false,if_false,headD_slice,bind,Except.bind]
  cases decodeType id ((page.slice 0 1).headD 0) with
  | error => rfl
  | ok typ =>
    simp only [uint16At,uint64At]
    refine ite_congr rfl (fun _ => rfl) fun slots => ?_
    rw [readEntries_exact page (by simpa only [entryBase,Nat.zero_add] using Nat.le_of_not_lt slots)]
    cases decodeEntries id typ page (getLE (page.slice 2 2)) 0 [] <;> rfl

theorem readPage_inside (sized : bytes.length = pageSize) :
    (∃ node, readPage id bytes = .ok node) ∨ ∃ fault, readPage id bytes = .error fault ∧ fault ≠ .indexOutOfRange := by
  have same : readPage id bytes = decodeNode id ⟨bytes,sized⟩ := readPage_exact ⟨bytes,sized⟩
  rw [same]
  cases decoded : decodeNode id ⟨bytes,sized⟩ with
  | ok node => exact .inl ⟨node,rfl⟩
  | error fault =>
    refine .inr ⟨fault,rfl,?_⟩
    rintro rfl
    have ordinary := BTreeSafety.decodeNode_ordinary decoded
    cases ordinary

theorem page_stored (given : Pager.page id p = .ok held p) (page : Page) :
    Pager.page id (p.setPage id page) = .ok page (p.setPage id page) := by
  have open_ : ensureOpen (p.setPage id page) = ensureOpen p := rfl
  unfold Pager.page at given ⊢
  rw [open_]
  cases closed : ensureOpen p with
  | some => simp only [closed] at given; cases given
  | none =>
    simp only [closed,pageLocked] at given ⊢
    have count : (p.setPage id page).header = p.header := rfl
    rw [count]
    by_cases outside : id ≥ p.header.pageCount
    · simp only [if_pos outside] at given; cases given
    · simp only [if_neg outside] at given ⊢
      cases place : p.file.pages[id]? with
      | none => simp only [place] at given; cases given
      | some =>
        obtain ⟨inside,_⟩ := List.getElem?_eq_some_iff.mp place
        have now : (p.setPage id page).file.pages[id]? = some page := List.getElem?_set_self inside
        simp only [now]

-- Whatever the page held, the node written to it is the node decoded from it;
-- and no page of any content is read past its end.
theorem node_pages_round_trip {node : Node} {p : Pager} {held : Page} (valid : WellFormed node)
    (fits : nodeFits node = true) (given : Pager.page node.id p = .ok held p) :
    (∃ page q, BTreePager.writeNode node p = .ok () q ∧ Pager.page node.id q = .ok page q ∧
      readPage node.id page.1 = .ok node) ∧ ∀ id bytes, bytes.length = pageSize →
      (∃ node, readPage id bytes = .ok node) ∨ ∃ fault, readPage id bytes = .error fault ∧ fault ≠ .indexOutOfRange := by
  obtain ⟨final,written⟩ := layout_complete valid
  refine ⟨⟨final,p.setPage node.id final,?_,page_stored given final,?_⟩,fun id bytes sized => readPage_inside sized⟩
  · refine (Effect.bind_ran given).trans ?_
    rw [if_pos fits]
    simp only [written]
    rfl
  · rw [readPage_exact]
    exact decode_layout valid fits written

-- A leaf that fills its page to the last byte, over a page of other content.
def fullLeaf : Node := ⟨1,.leaf,7,[⟨[1],List.replicate 2000 5,0⟩,⟨[2],List.replicate 2046 6,0⟩]⟩

def oldPage : Page := ⟨List.replicate pageSize 255,by simp⟩

def oldPager : Pager := ⟨⟨[Page.zero,oldPage],0,pageSize_pos,2,by decide,by decide⟩,true,false,⟨2,0,0,0⟩,[]⟩

theorem full_leaf_round_trip : nodeUsed fullLeaf.entries = pageSize ∧
    ∃ page q, BTreePager.writeNode fullLeaf oldPager = .ok () q ∧ Pager.page fullLeaf.id q = .ok page q ∧
      readPage fullLeaf.id page.1 = .ok fullLeaf := by
  have valid : WellFormed fullLeaf := by
    refine ⟨nofun,by decide,List.pairwise_pair.mpr (by decide),?_,?_,nofun⟩
    · exact List.forall_mem_cons.mpr ⟨nofun,List.forall_mem_cons.mpr ⟨nofun,nofun⟩⟩
    · exact List.forall_mem_cons.mpr ⟨Nat.two_pow_pos 64,List.forall_mem_cons.mpr ⟨Nat.two_pow_pos 64,nofun⟩⟩
  have used : nodeUsed fullLeaf.entries = pageSize := by
    simp only [nodeUsed,fullLeaf,entrySize,List.length_cons,List.length_nil,List.length_replicate,List.map_cons,
      List.map_nil,List.sum_cons,List.sum_nil]
    rfl
  have fits : nodeFits fullLeaf = true := by simp [nodeFits,used]
  have given : Pager.page fullLeaf.id oldPager = .ok oldPage oldPager := rfl
  exact ⟨used,(node_pages_round_trip valid fits given).1⟩

end Kronos.NodePages
