import Kronos.BTreePager
import Kronos.PageStoreSound

namespace Kronos.NodeHeap
open ByteRange BTreeNode BTree PageStore BTreePager

-- The pager seen through decodeNode: pages hold nodes, or the error that
-- decoding them gives, and the free list is a stack of page numbers.
structure Heap where
  nodes : Nat → Except Fault Node
  pageCount : Nat
  free : List Nat
  limit : Nat

def Heap.set (h : Heap) (id : Nat) (view : Except Fault Node) : Heap :=
  {h with nodes := fun other => if other = id then view else h.nodes other}

section
variable (h : Heap) (id : Nat) (view : Except Fault Node)

@[simp] theorem set_pageCount : (h.set id view).pageCount = h.pageCount := rfl
@[simp] theorem set_free : (h.set id view).free = h.free := rfl
@[simp] theorem set_same : (h.set id view).nodes id = view := by
  simp [Heap.set]

end

theorem set_other {id : Nat} (h : Heap) (view : Except Fault Node) (different : other ≠ id) :
    (h.set id view).nodes other = h.nodes other := by
  simp [Heap.set,different]

instance : Decidable (WellFormed node) :=
  decidable_of_iff (node.typ ≠ .unset ∧ node.next < 2 ^ 64 ∧
    List.Pairwise (fun first second : Entry => first.key < second.key) node.entries ∧ (∀ e ∈ node.entries, e.key ≠ []) ∧
    (∀ e ∈ node.entries, e.child < 2 ^ 64) ∧ (node.typ = .branch → ∀ e ∈ node.entries, e.child ≠ 0))
    ⟨fun ⟨typed,next,sorted,keyed,children,linked⟩ => ⟨typed,next,sorted,keyed,children,linked⟩,fun valid =>
      ⟨valid.typed,valid.next,valid.sorted,valid.keyed,valid.children,valid.linked⟩⟩

def linkPage (head : Nat) : Page := Page.zero.splice 0 (putLE 8 head)

def readNode (id : Nat) : EStateM Fault Heap Node := fun h =>
  if id ≥ h.pageCount then .error (.pageOutOfRange id) h
  else if id = 0 then .error (.untracked id) h
  else match h.nodes id with
    | .ok node => .ok node h
    | .error fault => .error fault h

-- Stores that would break the free list, the header page or the node order
-- are outside what the heap can follow.
def writeNode (node : Node) : EStateM Fault Heap Unit := fun h =>
  if node.id ≥ h.pageCount then .error (.pageOutOfRange node.id) h
  else if nodeFits node = false then .error (.nodeDoesNotFit node.id) h
  else if node.id = 0 ∨ node.id ∈ h.free ∨ ¬ WellFormed node then .error (.untracked node.id) h
  else .ok () (h.set node.id (.ok node))

def allocPage : EStateM Fault Heap Nat := fun h =>
  match h.free with
  | id :: rest => .ok id (({h with free := rest} : Heap).set id (decodeNode id Page.zero))
  | [] =>
    if h.pageCount + 1 ≤ h.limit then
      .ok h.pageCount (({h with pageCount := h.pageCount + 1} : Heap).set h.pageCount
        (decodeNode h.pageCount Page.zero))
    else .error .growFailed h

def freePage (id : Nat) : EStateM Fault Heap Unit := fun h =>
  if id = 0 then .error .freeMetaPage h
  else if id ≥ h.pageCount then .error (.pageOutOfRange id) h
  else if id ∈ h.free then .error (.alreadyFree id) h
  else .ok () (({h with free := id :: h.free} : Heap).set id (decodeNode id (linkPage (h.free.headD 0))))

def pageCount : EStateM Fault Heap Nat := fun h => .ok h.pageCount h

def heapStore : Store Heap := ⟨readNode,writeNode,allocPage,freePage,pageCount⟩

variable {p q : Pager} {h t : Heap} {id : Nat}

structure Tracks (p : Pager) (h : Heap) : Prop where
  sound : Sound p h.free
  count : p.header.pageCount = h.pageCount
  limit : p.file.limit = h.limit
  view : ∀ id page, id ≠ 0 → id < h.pageCount → p.file.pages[id]? = some page →
    h.nodes id = decodeNode id page

-- The pager does what the heap does, wherever the heap can follow it.
def Follows (low : EStateM.Result Fault Pager α) (high : EStateM.Result Fault Heap α) : Prop :=
  match high with
  | .ok a h => ∃ p, low = .ok a p ∧ Tracks p h
  | .error fault _ => (∃ id, fault = .untracked id) ∨ ∃ p, low = .error fault p

def Simulates (low : EStateM Fault Pager α) (high : EStateM Fault Heap α) : Prop :=
  ∀ p h, Tracks p h → Follows (low p) (high h)

theorem follows_error {low : EStateM.Result Fault Pager α} (ran : low = .error fault p) :
    Follows low (.error fault h) := .inr ⟨p,ran⟩

theorem follows_untracked {low : EStateM.Result Fault Pager α} : Follows low (.error (.untracked id) h) :=
  .inl ⟨id,rfl⟩

theorem simulates_pure (a : α) : Simulates (pure a) (pure a) :=
  fun p _ tracks => ⟨p,rfl,tracks⟩

theorem simulates_throw (fault : Fault) : Simulates (throw fault : EStateM Fault Pager α) (throw fault) :=
  fun _ _ _ => follows_error rfl

theorem simulates_bind {lowNext : α → EStateM Fault Pager β} {highNext : α → EStateM Fault Heap β}
    (first : Simulates low high) (rest : ∀ a, Simulates (lowNext a) (highNext a)) :
    Simulates (low >>= lowNext) (high >>= highNext) := by
  intro p h tracks
  have one := first p h tracks
  cases ran : high h with
  | ok a t =>
    rw [ran] at one
    obtain ⟨q,low,tracked⟩ := one
    have two := rest a q t tracked
    simpa [bind,EStateM.bind,low,ran] using two
  | error =>
    simp only [bind,EStateM.bind,ran]
    rw [ran] at one
    rcases one with untracked | ⟨q,low⟩
    · exact .inl untracked
    · exact .inr ⟨q,by simp [low]⟩

theorem simulates_ite {P : Prop} [Decidable P] {a b : EStateM Fault Pager α} {c d : EStateM Fault Heap α}
    (yes : Simulates a c) (no : Simulates b d) : Simulates (if P then a else b) (if P then c else d) := by
  split
  · exact yes
  · exact no

theorem page_exact (tracks : Tracks p h) (inside : id < h.pageCount) :
    ∃ page, p.file.pages[id]? = some page ∧ Pager.page id p = .ok page p := by
  obtain ⟨page,held,locked⟩ := pageLocked_sound tracks.sound (by rw [tracks.count]; exact inside)
  exact ⟨page,held,by simp only [Pager.page,ensureOpen_sound tracks.sound,locked]⟩

theorem page_outside (tracks : Tracks p h) (outside : id ≥ h.pageCount) :
    Pager.page id p = .error (.pageOutOfRange id) p := by
  have beyond : id ≥ p.header.pageCount := by rw [tracks.count]; exact outside
  simp only [Pager.page,ensureOpen_sound tracks.sound,pageLocked,if_pos beyond]

theorem readNode_simulates (id : Nat) : Simulates (BTreePager.readNode id) (readNode id) := by
  intro p h tracks
  unfold readNode
  split
  · rename_i outside
    exact follows_error (by simp only [BTreePager.readNode,bind,EStateM.bind,page_outside tracks outside]; rfl)
  · rename_i inside
    split
    · exact follows_untracked
    · rename_i nonzero
      obtain ⟨page,held,ran⟩ := page_exact tracks (Nat.lt_of_not_le inside)
      have view := tracks.view id page nonzero (Nat.lt_of_not_le inside) held
      rw [view]
      cases decoded : decodeNode id page with
      | ok => exact ⟨p,by simp only [BTreePager.readNode,bind,EStateM.bind,ran,decoded]; rfl,tracks⟩
      | error => exact follows_error (by simp only [BTreePager.readNode,bind,EStateM.bind,ran,decoded]; rfl)

theorem Tracks.store {view : Except Fault Node} (tracks : Tracks p h) (used : id ∉ h.free) (decoded : decodeNode id page = view) :
    Tracks (p.setPage id page) (h.set id view) where
  sound := setPage_sound tracks.sound used
  count := tracks.count
  limit := tracks.limit
  view := by
    intro other content nonzero inside held
    by_cases same : other = id
    · subst same
      have bound : other < p.file.pages.length :=
        Nat.lt_of_lt_of_le (by rw [tracks.count]; exact inside) tracks.sound.backed
      simp only [setPage_pages,List.getElem?_set_self bound,Option.some.injEq] at held
      rw [set_same,← decoded,held]
    · rw [set_other h view same]
      refine tracks.view other content nonzero inside ?_
      simpa [List.getElem?_set_ne (Ne.symm same)] using held

theorem writeNode_simulates (node : Node) : Simulates (BTreePager.writeNode node) (writeNode node) := by
  intro p h tracks
  unfold writeNode
  split
  · rename_i outside
    exact follows_error (by simp only [BTreePager.writeNode,bind,EStateM.bind,page_outside tracks outside]; rfl)
  · rename_i inside
    obtain ⟨page,held,ran⟩ := page_exact tracks (Nat.lt_of_not_le inside)
    split
    · rename_i large
      exact follows_error (by simp [BTreePager.writeNode,bind,EStateM.bind,ran,large]; rfl)
    · rename_i fits
      split
      · exact follows_untracked
      · rename_i tracked
        have fits : nodeFits node = true := by simpa using fits
        have used : node.id ∉ h.free := fun free => tracked (.inr (.inl free))
        have valid : WellFormed node := by
          by_contra broken
          exact tracked (.inr (.inr broken))
        obtain ⟨final,written⟩ := layout_complete valid
        have decoded := decode_layout valid fits written
        refine ⟨p.setPage node.id final,?_,tracks.store used decoded⟩
        simp only [BTreePager.writeNode,bind,EStateM.bind,ran,fits,if_true,storePage,written]
        rfl

theorem Tracks.move (tracks : Tracks p h) (id : Nat) (sound : Sound q t.free)
    (count : q.header.pageCount = t.pageCount) (limit : q.file.limit = t.limit)
    (frame : ∀ other, other ≠ 0 → other ≠ id → other < t.pageCount →
      other < h.pageCount ∧ q.file.pages[other]? = p.file.pages[other]? ∧ t.nodes other = h.nodes other)
    (content : q.file.pages[id]? = some page) (here : t.nodes id = decodeNode id page) : Tracks q t where
  sound := sound
  count := count
  limit := limit
  view := by
    intro other held nonzero inside found
    by_cases same : other = id
    · subst same
      rw [content,Option.some.injEq] at found
      rw [here,found]
    · obtain ⟨before,pages,nodes⟩ := frame other nonzero same inside
      rw [nodes]
      exact tracks.view other held nonzero before (pages ▸ found)

theorem allocPage_simulates : Simulates PageStore.allocPage allocPage := by
  intro p h tracks
  have sound := tracks.sound
  unfold allocPage
  cases shape : h.free with
  | cons first =>
    rw [shape] at sound
    obtain ⟨q,ran,allocated⟩ := alloc_reuse sound
    have count : q.header.pageCount = h.pageCount := by
      rcases allocated.source with ⟨_,count⟩ | ⟨empty,_⟩
      · rw [count,tracks.count]
      · exact absurd empty (by simp)
    refine ⟨q,ran,tracks.move first allocated.sound count (allocated.limit.trans tracks.limit) ?_
      allocated.cleared (set_same _ _ _)⟩
    intro other nonzero different inside
    exact ⟨inside,allocated.frame other nonzero different (by rw [tracks.count]; exact inside),
      set_other _ _ different⟩
  | nil =>
    rw [shape] at sound
    by_cases room : h.pageCount + 1 ≤ h.limit
    · obtain ⟨q,ran,allocated⟩ := alloc_grow sound (by rw [tracks.count,tracks.limit]; exact room)
      have count : q.header.pageCount = h.pageCount + 1 := by
        rcases allocated.source with ⟨empty,_⟩ | ⟨_,_,_,count⟩
        · exact absurd empty (by simp)
        · rw [count,tracks.count]
      rw [tracks.count] at ran allocated
      simp only [if_pos room]
      refine ⟨q,ran,tracks.move h.pageCount (by rw [set_free]; exact shape ▸ allocated.sound) count
        (allocated.limit.trans tracks.limit) ?_ allocated.cleared (set_same _ _ _)⟩
      intro other nonzero different inside
      have before : other < h.pageCount := by simp only [set_pageCount] at inside; omega
      exact ⟨before,allocated.frame other nonzero different (by rw [tracks.count]; exact before),
        set_other _ _ different⟩
    · obtain ⟨_,ran⟩ := alloc_full sound (by rw [tracks.count,tracks.limit]; exact room)
      simp only [if_neg room]
      exact follows_error ran

theorem freePage_simulates (id : Nat) : Simulates (PageStore.freePage id) (freePage id) := by
  intro p h tracks
  have sound := tracks.sound
  unfold freePage
  split
  · rename_i zero
    have header : id = metaPageID := zero
    exact follows_error (by simp only [PageStore.freePage,ensureOpen_sound sound]; rw [if_pos header])
  · rename_i nonzero
    have ordinary : id ≠ metaPageID := nonzero
    split
    · rename_i outside
      have beyond : id ≥ p.header.pageCount := by rw [tracks.count]; exact outside
      exact follows_error (by
        simp only [PageStore.freePage,ensureOpen_sound sound]; rw [if_neg ordinary,if_pos beyond])
    · have within : id < p.header.pageCount := by rw [tracks.count]; omega
      split
      · rename_i listed
        have member : id ∈ p.freeSet := (sound.indexed id).mpr listed
        exact follows_error (by
          simp only [PageStore.freePage,ensureOpen_sound sound]
          rw [if_neg ordinary,if_neg (Nat.not_le_of_lt within),if_pos member])
      · rename_i used
        obtain ⟨q,ran,freed⟩ := free_exact sound nonzero within used
        refine ⟨q,ran,tracks.move id freed.sound (freed.count.trans tracks.count)
          (freed.limit.trans tracks.limit) ?_ freed.linked (set_same _ _ _)⟩
        intro other header different before
        exact ⟨before,freed.frame other header different,set_other _ _ different⟩

theorem pageCount_simulates : Simulates BTreePager.pageCount pageCount := by
  intro p h tracks
  exact ⟨p,by simp only [BTreePager.pageCount,tracks.count],tracks⟩

end Kronos.NodeHeap
