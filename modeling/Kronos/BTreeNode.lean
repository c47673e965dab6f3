import Kronos.ByteRange
import Kronos.SortedRun

namespace Kronos.BTreeNode
open ByteRange

def pageSize : Nat := 4096
def nodeHeaderSize : Nat := 16
def nodeEntrySize : Nat := 16

theorem pageSize_pos : 0 < pageSize := by decide

-- `unset` is the zero byte of a node value that was never decoded.
inductive NodeType where
  | unset | leaf | branch
  deriving DecidableEq, Repr

def NodeType.byte : NodeType → UInt8
  | .unset => 0
  | .leaf => 1
  | .branch => 2

structure Entry where
  key : Bytes
  value : Bytes
  child : Nat
  deriving DecidableEq, Repr

structure Node where
  id : Nat
  typ : NodeType
  next : Nat
  entries : List Entry
  deriving DecidableEq, Repr

-- Every way an operation of the page store can stop. `indexOutOfRange` is the
-- runtime panic and `stackOverflow` the descent that never comes to a leaf;
-- `untracked` is raised by no pager, only by the heap that abstracts one.
inductive Fault where
  | pagerClosed | pagerNotOpen | pageOutOfRange (id : Nat) | freeMetaPage | alreadyFree (id : Nat)
  | rootOutOfRange (id : Nat) | growFailed | mappingTooSmall | invalidFileSize (size : Nat) | invalidMagic
  | unsupportedVersion (version : Nat) | unsupportedPageSize (size : Nat) | invalidPageCount (count size : Nat)
  | freeListCycleOrCount | freePageOutOfRange (id : Nat) | freeListCycle (id : Nat) | freeListCount (got want : Nat)
  | keyRequired | wrongPageSize (id : Nat) (size : Nat) | invalidNodeType (id : Nat) (typ : Nat)
  | directoryOverflow (id : Nat) | entryEmptyKey (id : Nat) (index : Nat) | keyOutOfRange (id : Nat) (index : Nat)
  | valueOutOfRange (id : Nat) (index : Nat) | keysOutOfOrder (id : Nat) | entryNoChild (id : Nat) (index : Nat)
  | nodeDoesNotFit (id : Nat) | nodeEmptyKey (id : Nat) (index : Nat) | unsupportedNodeType (typ : Nat)
  | notBranch (id : Nat) | noEntries (id : Nat) | indexOutOfRange | stackOverflow | untracked (id : Nat)
  deriving DecidableEq, Repr

-- A page always holds exactly pageSize bytes.
def Page := { bytes : Bytes // bytes.length = pageSize }

def Page.zero : Page := ⟨List.replicate pageSize 0,by simp⟩

def Page.splice (page : Page) (at_ : Nat) (patch : Bytes) : Page :=
  ⟨ByteRange.splice page.1 at_ patch,by rw [splice_length]; exact page.2⟩

def Page.slice (page : Page) (from_ size : Nat) : Bytes := ByteRange.slice page.1 from_ size

theorem Page.slice_same (page : Page) (sized : patch.length = size) (inside : at_ + size ≤ pageSize) :
    (page.splice at_ patch).slice at_ size = patch := by
  subst sized
  exact slice_splice_same page.1 at_ patch (by rw [page.2]; exact inside)

theorem Page.slice_apart (page : Page) (sized : patch.length = width)
    (apart : from_ + size ≤ at_ ∨ at_ + width ≤ from_) :
    (page.splice at_ patch).slice from_ size = page.slice from_ size :=
  slice_splice_apart page.1 from_ size at_ patch (by rw [sized]; exact apart)

def uint16At (page : Page) (at_ : Nat) : Nat := getLE (page.slice at_ 2)
def uint64At (page : Page) (at_ : Nat) : Nat := getLE (page.slice at_ 8)

def entryBase (index : Nat) : Nat := nodeHeaderSize + index * nodeEntrySize

def entrySize (entry : Entry) : Nat := entry.key.length + entry.value.length

def nodeUsed (entries : List Entry) : Nat :=
  nodeHeaderSize + entries.length * nodeEntrySize + (entries.map entrySize).sum

def nodeFits (node : Node) : Bool := decide (nodeUsed node.entries ≤ pageSize)

-- The loop of writeNode: values and keys are laid out downwards from the end
-- of the page, the directory upwards from the header.
def writeEntry (page : Page) (cursor index : Nat) (entry : Entry) : Page :=
  let valueOff := cursor - entry.value.length
  let keyOff := valueOff - entry.key.length
  let base := entryBase index
  (((((((page.splice valueOff entry.value).splice keyOff entry.key).splice base (putLE 2 keyOff)).splice
    (base+2) (putLE 2 entry.key.length)).splice (base+4) (putLE 2 valueOff)).splice
    (base+6) (putLE 2 entry.value.length)).splice (base+8) (putLE 8 entry.child))

def writeEntries (id : Nat) : Page → Nat → Nat → List Entry → Page × Option Fault
  | page,_,_,[] => (page,none)
  | page,cursor,index,entry :: rest =>
    if entry.key.length = 0 then (page,some (.nodeEmptyKey id index))
    else writeEntries id (writeEntry page cursor index entry) (cursor - entrySize entry) (index+1) rest

def writeHeader (node : Node) : Page :=
  ((Page.zero.splice 0 [node.typ.byte]).splice 2 (putLE 2 node.entries.length)).splice 8 (putLE 8 node.next)

-- The page after writeNode's stores, and the error that stopped them, if any.
def layoutNode (node : Node) : Page × Option Fault :=
  writeEntries node.id (writeHeader node) pageSize 0 node.entries

def decodeEntry (id : Nat) (page : Page) (index : Nat) : Except Fault Entry :=
  let base := entryBase index
  let keyOff := uint16At page base
  let keyLen := uint16At page (base+2)
  let valOff := uint16At page (base+4)
  let valLen := uint16At page (base+6)
  let child := uint64At page (base+8)
  if keyLen = 0 then .error (.entryEmptyKey id index)
  else if keyOff + keyLen > pageSize then .error (.keyOutOfRange id index)
  else if valOff + valLen > pageSize then .error (.valueOutOfRange id index)
  else .ok ⟨page.slice keyOff keyLen,page.slice valOff valLen,child⟩

def decodeEntries (id : Nat) (typ : NodeType) (page : Page) :
    Nat → Nat → List Entry → Except Fault (List Entry)
  | 0,_,entries => .ok entries
  | left+1,index,entries =>
    match decodeEntry id page index with
    | .error fault => .error fault
    | .ok entry =>
      if entries.getLast?.any (fun previous => decide (entry.key ≤ previous.key)) then
        .error (.keysOutOfOrder id)
      else if typ = .branch ∧ entry.child = 0 then .error (.entryNoChild id index)
      else decodeEntries id typ page left (index+1) (entries ++ [entry])

def decodeType (id : Nat) (byte : UInt8) : Except Fault NodeType :=
  if byte = NodeType.leaf.byte then .ok .leaf
  else if byte = NodeType.branch.byte then .ok .branch
  else .error (.invalidNodeType id byte.toNat)

def decodeNode (id : Nat) (page : Page) : Except Fault Node :=
  if page.1.length ≠ pageSize then .error (.wrongPageSize id page.1.length)
  else match decodeType id (page.1.headD 0) with
    | .error fault => .error fault
    | .ok typ =>
      let count := uint16At page 2
      let next := uint64At page 8
      if nodeHeaderSize + count * nodeEntrySize > pageSize then .error (.directoryOverflow id)
      else match decodeEntries id typ page count 0 [] with
        | .error fault => .error fault
        | .ok entries => .ok ⟨id,typ,next,entries⟩

end Kronos.BTreeNode
