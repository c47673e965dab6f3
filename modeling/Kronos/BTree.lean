import Kronos.BTreeNode
import Kronos.Effect

namespace Kronos.BTree
open ByteRange BTreeNode Effect

-- What the tree needs of the pager. `pageCount` bounds every descent through
-- distinct pages: one that uses it up goes round in a cycle.
structure Store (σ : Type) where
  readNode : Nat → EStateM Fault σ Node
  writeNode : Node → EStateM Fault σ Unit
  allocPage : EStateM Fault σ Nat
  freePage : Nat → EStateM Fault σ Unit
  pageCount : EStateM Fault σ Nat

def lowerBound (entries : List Entry) (key : Bytes) : Nat := SortedRun.lowerBound Entry.key entries key

def search (entries : List Entry) (key : Bytes) : Option Nat :=
  let index := lowerBound entries key
  if (entries[index]?).any (fun entry => decide (entry.key = key)) then some index else none

def insertEntry (entries : List Entry) (entry : Entry) : List Entry :=
  let index := lowerBound entries entry.key
  if (entries[index]?).any (fun found => decide (found.key = entry.key)) then entries.set index entry
  else entries.take index ++ entry :: entries.drop index

def deleteEntry (entries : List Entry) (key : Bytes) : Option (List Entry) :=
  (search entries key).map (fun index => entries.eraseIdx index)

def splitEntries (entries : List Entry) : List Entry × List Entry :=
  let mid := if entries.length / 2 = 0 then 1 else entries.length / 2
  (entries.take mid,entries.drop mid)

-- The index is -1 for a node without entries, as in the source.
def childIndexFor (entries : List Entry) (key : Bytes) : Int :=
  let index := lowerBound entries key
  match entries[index]? with
  | none => (entries.length : Int) - 1
  | some entry => if key < entry.key ∧ index > 0 then (index : Int) - 1 else index

def entryAt (entries : List Entry) : Int → EStateM Fault σ Entry
  | .ofNat index => match entries[index]? with
    | some entry => pure entry
    | none => throw .indexOutOfRange
  | .negSucc _ => throw .indexOutOfRange

def childFor (node : Node) (key : Bytes) : EStateM Fault σ Nat := do
  if node.typ ≠ .branch then throw (.notBranch node.id)
  else if node.entries = [] then throw (.noEntries node.id)
  else
    let lower := lowerBound node.entries key
    let index := if lower ≥ node.entries.length then node.entries.length - 1 else lower
    let entry ← entryAt node.entries index
    if key < entry.key ∧ index > 0 then
      let before ← entryAt node.entries (index - 1 : Nat)
      return before.child
    else return entry.child

def firstKey (entries : List Entry) : Bytes :=
  match entries with
  | [] => []
  | entry :: _ => entry.key

section Operations
variable {σ : Type} (S : Store σ)

def createBTree : EStateM Fault σ Nat := do
  let root ← S.allocPage
  S.writeNode ⟨root,.leaf,0,[]⟩
  return root

def getAt : Nat → Nat → Bytes → EStateM Fault σ (Option Bytes)
  | 0,_,_ => throw .stackOverflow
  | depth+1,pageID,key => do
    let node ← S.readNode pageID
    match node.typ with
    | .leaf => match search node.entries key with
      | none => return none
      | some index =>
        let entry ← entryAt node.entries index
        return some entry.value
    | .branch =>
      let child ← childFor node key
      getAt depth child key
    | .unset => throw (.unsupportedNodeType 0)

def get (root : Nat) (key : Bytes) : EStateM Fault σ (Option Bytes) := do
  if key.length = 0 then throw .keyRequired
  else
    let depth ← S.pageCount
    getAt S depth root key

def splitNonRoot (node : Node) : EStateM Fault σ (Option Entry) := do
  let halves := splitEntries node.entries
  let rightID ← S.allocPage
  S.writeNode {node with
    entries := halves.1
    next := if node.typ = .leaf then rightID else 0}
  S.writeNode ⟨rightID,node.typ,if node.typ = .leaf then node.next else 0,halves.2⟩
  return some ⟨firstKey halves.2,[],rightID⟩

def splitRootBranch (root : Node) : EStateM Fault σ Unit := do
  let halves := splitEntries root.entries
  let leftID ← S.allocPage
  let rightID ← S.allocPage
  S.writeNode ⟨leftID,.branch,0,halves.1⟩
  S.writeNode ⟨rightID,.branch,0,halves.2⟩
  S.writeNode ⟨root.id,.branch,0,[⟨firstKey halves.1,[],leftID⟩,⟨firstKey halves.2,[],rightID⟩]⟩

def splitRootLeaf (root : Node) : EStateM Fault σ Unit := do
  let halves := splitEntries root.entries
  let leftID ← S.allocPage
  let rightID ← S.allocPage
  S.writeNode ⟨leftID,.leaf,rightID,halves.1⟩
  S.writeNode ⟨rightID,.leaf,0,halves.2⟩
  S.writeNode ⟨root.id,.branch,0,[⟨firstKey halves.1,[],leftID⟩,⟨firstKey halves.2,[],rightID⟩]⟩

-- The parent's entries once a child was rewritten: its separator follows the
-- child's first key and a split adds the new sibling.
def adoptChild (entries : List Entry) (index : Int) (child : Node) (split : Option Entry) : List Entry :=
  let moved := entries.modify index.toNat (fun entry => {entry with key := firstKey child.entries})
  match split with
  | none => moved
  | some sibling => insertEntry moved sibling

def writeOrSplit (node : Node) : EStateM Fault σ (Option Entry) := do
  if nodeFits node then
    S.writeNode node
    return none
  else splitNonRoot S node

def putNonRoot : Nat → Node → Bytes → Bytes → EStateM Fault σ (Option Entry)
  | 0,_,_,_ => throw .stackOverflow
  | depth+1,node,key,value =>
    match node.typ with
    | .leaf => writeOrSplit S {node with entries := insertEntry node.entries ⟨key,value,0⟩}
    | .branch => do
      let index := childIndexFor node.entries key
      let entry ← entryAt node.entries index
      let child ← S.readNode entry.child
      let split ← putNonRoot depth child key value
      let child ← S.readNode entry.child
      writeOrSplit S {node with entries := adoptChild node.entries index child split}
    | .unset => throw (.unsupportedNodeType 0)

def putRootBranch (root : Node) (key value : Bytes) : EStateM Fault σ Unit := do
  let index := childIndexFor root.entries key
  let entry ← entryAt root.entries index
  let child ← S.readNode entry.child
  let depth ← S.pageCount
  let split ← putNonRoot S depth child key value
  let child ← S.readNode entry.child
  let updated : Node := {root with entries := adoptChild root.entries index child split}
  if nodeFits updated then S.writeNode updated else splitRootBranch S updated

def put (root : Nat) (key value : Bytes) : EStateM Fault σ Unit := do
  if key.length = 0 then throw .keyRequired
  else
    let node ← S.readNode root
    match node.typ with
    | .leaf =>
      let updated : Node := {node with entries := insertEntry node.entries ⟨key,value,0⟩}
      if nodeFits updated then S.writeNode updated else splitRootLeaf S updated
    | .branch => putRootBranch S node key value
    | .unset => throw (.unsupportedNodeType 0)

def releaseChild (id : Nat) (isRoot : Bool) : EStateM Fault σ Unit :=
  if isRoot then pure () else S.freePage id

-- The tail of deleteFromBranch once the child has lost its key. An emptied
-- child of the root is dropped from the entries but neither written nor freed.
def detachChild (node : Node) (index : Int) (child : Node) (isRoot : Bool) : EStateM Fault σ Bool := do
  if child.entries = [] then
    releaseChild S child.id isRoot
    S.writeNode {node with entries := node.entries.eraseIdx index.toNat}
    return true
  else
    S.writeNode child
    S.writeNode {node with
      entries := node.entries.modify index.toNat (fun entry => {entry with key := firstKey child.entries})}
    return true

def deleteFromBranch : Nat → Node → Bytes → Bool → EStateM Fault σ Bool
  | 0,_,_,_ => throw .stackOverflow
  | depth+1,node,key,isRoot =>
    if node.entries = [] then throw (.noEntries node.id)
    else do
      let index := childIndexFor node.entries key
      let entry ← entryAt node.entries index
      let child ← S.readNode entry.child
      match child.typ with
      | .leaf => match deleteEntry child.entries key with
        | none => return false
        | some next => detachChild S node index {child with entries := next} isRoot
      | .branch =>
        let deleted ← deleteFromBranch depth child key false
        if deleted then
          let child ← S.readNode child.id
          detachChild S node index child isRoot
        else return false
      | .unset => throw (.unsupportedNodeType 0)

def delete (root : Nat) (key : Bytes) : EStateM Fault σ Unit := do
  if key.length = 0 then throw .keyRequired
  else
    let node ← S.readNode root
    match node.typ with
    | .leaf => match deleteEntry node.entries key with
      | none => return ()
      | some next => S.writeNode {node with entries := next}
    | .branch =>
      let depth ← S.pageCount
      let deleted ← deleteFromBranch S depth node key true
      if deleted then
        let node ← S.readNode node.id
        if node.entries.length = 1 then
          let entry ← entryAt node.entries 0
          let only ← S.readNode entry.child
          S.writeNode {only with id := root}
        else S.writeNode node
      else return ()
    | .unset => throw (.unsupportedNodeType 0)

structure Iterator where
  node : Node
  index : Nat
  stop : Option Bytes
  err : Option Fault
  deriving DecidableEq, Repr

def Iterator.zero : Iterator := ⟨⟨0,.unset,0,[]⟩,0,none,none⟩

def Iterator.current (it : Iterator) : Option Entry := it.node.entries[it.index]?

def Iterator.valid (it : Iterator) : Bool :=
  it.err.isNone && decide (it.node.typ = .leaf) &&
    match it.current with
    | none => false
    | some entry => match it.stop with
      | none => true
      | some stop => !decide (stop ≤ entry.key)

-- A page that cannot be read ends the scan with the iterator's error; only a
-- runtime panic leaves the loop.
def skipEmpty : Nat → Iterator → EStateM Fault σ Iterator
  | 0,_ => throw .stackOverflow
  | left+1,it => do
    if it.err = none ∧ it.node.typ = .leaf ∧ it.index ≥ it.node.entries.length ∧ it.node.next ≠ 0 then
      let read ← attempt (S.readNode it.node.next)
      match read with
      | .ok following => skipEmpty left {it with node := following,index := 0}
      | .error fault => if fault = .indexOutOfRange then throw fault else return {it with err := some fault}
    else return it

def firstLeafAt : Nat → Nat → Bytes → EStateM Fault σ Node
  | 0,_,_ => throw .stackOverflow
  | depth+1,pageID,key => do
    let node ← S.readNode pageID
    match node.typ with
    | .leaf => return node
    | .branch =>
      let child ← childFor node key
      firstLeafAt depth child key
    | .unset => throw (.unsupportedNodeType 0)

def scan (root : Nat) (start : Bytes) (stop : Option Bytes) : EStateM Fault σ Iterator := do
  if stop.any (fun stop => decide (stop ≤ start)) then return Iterator.zero
  else
    let depth ← S.pageCount
    let leaf ← firstLeafAt S depth root start
    skipEmpty S (depth+1) ⟨leaf,lowerBound leaf.entries start,stop,none⟩

def next (it : Iterator) : EStateM Fault σ Iterator := do
  if it.valid then
    let depth ← S.pageCount
    skipEmpty S (depth+1) {it with index := it.index + 1}
  else return it

-- `for it.Valid() { use(it.Key(), it.Value()); it.Next() }`, `count` turns at most.
def drive : Nat → Iterator → EStateM Fault σ (List (Bytes × Bytes) × Iterator)
  | 0,it => return ([],it)
  | count+1,it =>
    match it.valid,it.current with
    | true,some entry => do
      let it ← next S it
      let (rest,it) ← drive count it
      return ((entry.key,entry.value) :: rest,it)
    | _,_ => return ([],it)

end Operations

end Kronos.BTree
