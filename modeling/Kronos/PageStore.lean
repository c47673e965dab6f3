import Kronos.BTreeNode
import Kronos.Effect

namespace Kronos.PageStore
open ByteRange BTreeNode

def pagerMagic : Bytes := "KRKV".toUTF8.data.toList
def pagerVersion : Nat := 1
def metaPageID : Nat := 0

-- A page file together with the size its disk lets it grow to. File sizes are
-- int64 byte counts, so no file has 2^51 pages; `extra` counts the bytes after
-- the last whole page.
structure DiskFile where
  pages : List Page
  extra : Nat
  short : extra < pageSize
  limit : Nat
  small : limit < 2 ^ 51
  fits : pages.length ≤ limit

def DiskFile.size (file : DiskFile) : Nat := file.pages.length * pageSize + file.extra

def DiskFile.setPage (file : DiskFile) (id : Nat) (page : Page) : DiskFile :=
  {file with
    pages := file.pages.set id page
    fits := by rw [List.length_set]; exact file.fits}

-- Truncate to a whole number of pages, cutting or zero-filling the end.
def DiskFile.truncate (file : DiskFile) (count : Nat) : Option DiskFile :=
  if room : count ≤ file.limit then
    some {file with
      pages := file.pages.take count ++ List.replicate (count - file.pages.length) Page.zero
      extra := 0
      short := pageSize_pos
      fits := by
        rw [List.length_append,List.length_take,List.length_replicate]
        omega}
  else none

structure PagerMeta where
  pageCount : Nat
  freeHead : Nat
  freeCount : Nat
  rootPage : Nat
  deriving DecidableEq, Repr

-- The mapping is shared with the file, so one page list stands for both; it is
-- readable through the pager while `mapped` holds.
structure Pager where
  file : DiskFile
  mapped : Bool
  closed : Bool
  header : PagerMeta
  freeSet : List Nat

abbrev KV := EStateM Fault Pager

def inc64 (n : Nat) : Nat := (n + 1) % 2 ^ 64
def dec64 (n : Nat) : Nat := (n + (2 ^ 64 - 1)) % 2 ^ 64

def Pager.setPage (p : Pager) (id : Nat) (page : Page) : Pager :=
  {p with file := p.file.setPage id page}

def ensureOpen (p : Pager) : Option Fault :=
  if p.closed then some .pagerClosed
  else if !p.mapped then some .pagerNotOpen
  else none

def pageLocked (p : Pager) (id : Nat) : Except Fault Page :=
  if id ≥ p.header.pageCount then .error (.pageOutOfRange id)
  else match p.file.pages[id]? with
    | none => .error .indexOutOfRange
    | some page => .ok page

def metaPage (h : PagerMeta) : Page :=
  ((((((Page.zero.splice 0 pagerMagic).splice 4 (putLE 2 pagerVersion)).splice 6 (putLE 2 pageSize)).splice
    8 (putLE 8 h.pageCount)).splice 16 (putLE 8 h.freeHead)).splice 24 (putLE 8 h.freeCount)).splice
    32 (putLE 8 h.rootPage)

def writeMeta (p : Pager) : Except Fault Pager :=
  if !p.mapped || p.file.pages.length < 1 then .error .mappingTooSmall
  else .ok (p.setPage metaPageID (metaPage p.header))

def readMeta (file : DiskFile) : Except Fault PagerMeta :=
  match file.pages.head? with
  | none => .error .mappingTooSmall
  | some page =>
    if page.slice 0 4 ≠ pagerMagic then .error .invalidMagic
    else if uint16At page 4 ≠ pagerVersion then .error (.unsupportedVersion (uint16At page 4))
    else if uint16At page 6 ≠ pageSize then .error (.unsupportedPageSize (uint16At page 6))
    else .ok ⟨uint64At page 8,uint64At page 16,uint64At page 24,uint64At page 32⟩

-- The loop of rebuildFreeSet; `left` is FreeCount minus the pages seen so far.
def walkFreeList (p : Pager) : Nat → Nat → List Nat → Except Fault (List Nat)
  | left,id,seen =>
    if id = 0 then
      if seen.length ≠ p.header.freeCount then .error (.freeListCount seen.length p.header.freeCount)
      else .ok seen
    else match left with
      | 0 => .error .freeListCycleOrCount
      | left+1 =>
        if id ≥ p.header.pageCount then .error (.freePageOutOfRange id)
        else if id ∈ seen then .error (.freeListCycle id)
        else match pageLocked p id with
          | .error fault => .error fault
          | .ok page => walkFreeList p left (uint64At page 0) (seen ++ [id])

def openPager (file : DiskFile) : Except Fault Pager :=
  if file.size = 0 then
    match file.truncate 1 with
    | none => .error .growFailed
    | some grown => writeMeta ⟨grown,true,false,⟨1,0,0,0⟩,[]⟩
  else if file.size % pageSize ≠ 0 then .error (.invalidFileSize file.size)
  else match readMeta file with
    | .error fault => .error fault
    | .ok header =>
      if header.pageCount = 0 ∨ header.pageCount > file.size / pageSize then
        .error (.invalidPageCount header.pageCount file.size)
      else
        let p : Pager := ⟨file,true,false,header,[]⟩
        match walkFreeList p header.freeCount header.freeHead [] with
        | .error fault => .error fault
        | .ok free => .ok {p with freeSet := free}

-- unmap, truncate, map again: a refused truncate leaves the pager unmapped.
def resize (p : Pager) (count : Nat) : Except Pager Pager :=
  match p.file.truncate count with
  | none => .error {p with mapped := false}
  | some grown => .ok {p with file := grown,mapped := true}

def commitMeta (p : Pager) (result : α) : EStateM.Result Fault Pager α :=
  match writeMeta p with
  | .error fault => .error fault p
  | .ok after => .ok result after

def allocPage : KV Nat := fun p =>
  match ensureOpen p with
  | some fault => .error fault p
  | none =>
    if p.header.freeHead ≠ 0 then
      let id := p.header.freeHead
      match pageLocked p id with
      | .error fault => .error fault p
      | .ok page =>
        let taken := {p with
          freeSet := p.freeSet.filter (· ≠ id)
          header := {p.header with freeHead := uint64At page 0,freeCount := dec64 p.header.freeCount}}
        commitMeta (taken.setPage id Page.zero) id
    else
      let id := p.header.pageCount
      match resize {p with header := {p.header with pageCount := inc64 id}} (inc64 id) with
      | .error unmapped => .error .growFailed {unmapped with header := p.header}
      | .ok grown =>
        match pageLocked grown id with
        | .error fault => .error fault grown
        | .ok _ => commitMeta (grown.setPage id Page.zero) id

def freePage (id : Nat) : KV Unit := fun p =>
  match ensureOpen p with
  | some fault => .error fault p
  | none =>
    if id = metaPageID then .error .freeMetaPage p
    else if id ≥ p.header.pageCount then .error (.pageOutOfRange id) p
    else if id ∈ p.freeSet then .error (.alreadyFree id) p
    else match pageLocked p id with
      | .error fault => .error fault p
      | .ok _ =>
        let linked := p.setPage id (Page.zero.splice 0 (putLE 8 p.header.freeHead))
        commitMeta {linked with
          header := {p.header with freeHead := id,freeCount := inc64 p.header.freeCount}
          freeSet := p.freeSet ++ [id]} ()

def Pager.page (id : Nat) : KV Page := fun p =>
  match ensureOpen p with
  | some fault => .error fault p
  | none => match pageLocked p id with
    | .error fault => .error fault p
    | .ok page => .ok page p

def setRootPage (id : Nat) : KV Unit := fun p =>
  match ensureOpen p with
  | some fault => .error fault p
  | none =>
    if id ≠ 0 ∧ id ≥ p.header.pageCount then .error (.rootOutOfRange id) p
    else commitMeta {p with header := {p.header with rootPage := id}} ()

end Kronos.PageStore
