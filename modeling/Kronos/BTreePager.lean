import Kronos.BTree
import Kronos.PageStore

namespace Kronos.BTreePager
open BTreeNode BTree PageStore

def readNode (id : Nat) : KV Node := do
  let page ← Pager.page id
  match decodeNode id page with
  | .ok node => pure node
  | .error fault => throw fault

def storePage (id : Nat) (page : Page) : KV Unit := fun p => .ok () (p.setPage id page)

def writeNode (node : Node) : KV Unit := do
  let _ ← Pager.page node.id
  if nodeFits node then
    storePage node.id (layoutNode node).1
    match (layoutNode node).2 with
    | none => pure ()
    | some fault => throw fault
  else throw (.nodeDoesNotFit node.id)

def pageCount : KV Nat := fun p => .ok p.header.pageCount p

def pagerStore : Store Pager := ⟨readNode,writeNode,allocPage,freePage,pageCount⟩

end Kronos.BTreePager
