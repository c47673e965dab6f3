import Kronos.PageStore
import Kronos.BTreeNodeCodec
import Mathlib.Data.List.Nodup
import Mathlib.Data.List.Perm.Subperm

namespace Kronos.PageStore
open ByteRange BTreeNode

variable {p q : Pager} {id head : Nat} {free rest : List Nat}

-- The linked free list as it lies in the pages, read from its head.
def FreeChain (p : Pager) : Nat → List Nat → Prop
  | head,[] => head = 0
  | head,id :: rest => head = id ∧ id ≠ 0 ∧ id < p.header.pageCount ∧
      ∃ page, p.file.pages[id]? = some page ∧ FreeChain p (uint64At page 0) rest

structure Sound (p : Pager) (free : List Nat) : Prop where
  opened : p.closed = false
  mapped : p.mapped = true
  positive : 0 < p.header.pageCount
  backed : p.header.pageCount ≤ p.file.pages.length
  chain : FreeChain p p.header.freeHead free
  distinct : free.Nodup
  indexed : ∀ id, id ∈ p.freeSet ↔ id ∈ free
  counted : p.header.freeCount = free.length

theorem Sound.small (sound : Sound p free) : p.header.pageCount < 2 ^ 51 :=
  Nat.lt_of_le_of_lt (Nat.le_trans sound.backed p.file.fits) p.file.small

theorem chain_members (chain : FreeChain p head free) : ∀ id ∈ free, id ≠ 0 ∧ id < p.header.pageCount := by
  induction free generalizing head with
  | nil => intro id member; cases member
  | cons _ _ ih =>
    obtain ⟨_,nonzero,inside,_,_,later⟩ := chain
    intro id member
    rcases List.mem_cons.mp member with rfl | old
    · exact ⟨nonzero,inside⟩
    · exact ih later id old

theorem chain_head (chain : FreeChain p head free) : head = free.headD 0 := by
  cases free with
  | nil => exact chain
  | cons => exact chain.1

theorem chain_head_inside (chain : FreeChain p head free) (positive : 0 < p.header.pageCount) :
    head < p.header.pageCount := by
  cases free with
  | nil => rw [show head = 0 from chain]; exact positive
  | cons => rw [chain.1]; exact chain.2.2.1

theorem chain_unique (chain : FreeChain p head free) (other : FreeChain p head rest) : free = rest := by
  induction free generalizing head rest with
  | nil =>
    cases rest with
    | nil => rfl
    | cons => exact absurd (other.1.symm.trans chain) other.2.1
  | cons id _ ih =>
    obtain ⟨start,nonzero,_,page,found,next⟩ := chain
    cases rest with
    | nil => exact absurd (start.symm.trans other) nonzero
    | cons first =>
      obtain ⟨same,_,_,again,foundToo,nextToo⟩ := other
      obtain rfl : id = first := start.symm.trans same
      obtain rfl : page = again := Option.some.inj (found.symm.trans foundToo)
      rw [ih next nextToo]

-- The chain only reads the pages it runs through.
theorem chain_frame (chain : FreeChain p head free) (count : p.header.pageCount ≤ q.header.pageCount)
    (same : ∀ id ∈ free, q.file.pages[id]? = p.file.pages[id]?) : FreeChain q head free := by
  induction free generalizing head with
  | nil => exact chain
  | cons first _ ih =>
    obtain ⟨start,nonzero,inside,page,found,later⟩ := chain
    refine ⟨start,nonzero,Nat.lt_of_lt_of_le inside count,page,?_,?_⟩
    · rw [same first (by simp)]; exact found
    · exact ih later (fun id member => same id (List.mem_cons_of_mem _ member))

theorem Sound.free_small (sound : Sound p free) : free.length < p.header.pageCount := by
  have inside : free ⊆ (List.range p.header.pageCount).erase 0 := by
    intro id member
    obtain ⟨nonzero,bound⟩ := chain_members sound.chain id member
    exact (List.mem_erase_of_ne nonzero).mpr (List.mem_range.mpr bound)
  have sized := (List.Nodup.subperm sound.distinct inside).length_le
  rw [List.length_erase_of_mem (List.mem_range.mpr sound.positive),List.length_range] at sized
  have positive := sound.positive
  omega

theorem ensureOpen_sound (sound : Sound p free) : ensureOpen p = none := by
  simp [ensureOpen,sound.opened,sound.mapped]

theorem pageLocked_sound (sound : Sound p free) (inside : id < p.header.pageCount) :
    ∃ page, p.file.pages[id]? = some page ∧ pageLocked p id = .ok page := by
  have bound : id < p.file.pages.length := Nat.lt_of_lt_of_le inside sound.backed
  refine ⟨p.file.pages[id],List.getElem?_eq_getElem bound,?_⟩
  simp [pageLocked,Nat.not_le.mpr inside,List.getElem?_eq_getElem bound]

theorem pageLocked_held (locked : pageLocked p id = .ok page) : p.file.pages[id]? = some page := by
  unfold pageLocked at locked
  split at locked
  · cases locked
  · split at locked
    · cases locked
    · rename_i got
      cases locked
      exact got

section
variable (p : Pager) (id : Nat) (page : Page)

@[simp] theorem setPage_header : (p.setPage id page).header = p.header := rfl
@[simp] theorem setPage_pages : (p.setPage id page).file.pages = p.file.pages.set id page := rfl

end

theorem setPage_sound (sound : Sound p free) (used : id ∉ free) : Sound (p.setPage id page) free := {sound with
  backed := by simpa using sound.backed
  chain := chain_frame sound.chain (Nat.le_refl _) (fun other member => by
    have apart : id ≠ other := fun same => used (same ▸ member)
    simp [List.getElem?_set_ne apart])}

theorem writeMeta_exact (mapped : p.mapped = true) (backed : 0 < p.file.pages.length) :
    writeMeta p = .ok (p.setPage metaPageID (metaPage p.header)) := by
  simp [writeMeta,mapped]
  intro empty
  simp [empty] at backed

theorem Sound.header_apart (sound : Sound p free) : metaPageID ∉ free := by
  intro member
  exact (chain_members sound.chain metaPageID member).1 rfl

theorem Sound.commits (sound : Sound p free) (result : α) :
    commitMeta p result = .ok result (p.setPage metaPageID (metaPage p.header)) ∧
      Sound (p.setPage metaPageID (metaPage p.header)) free := by
  have written := writeMeta_exact sound.mapped (Nat.lt_of_lt_of_le sound.positive sound.backed)
  exact ⟨by simp [commitMeta,written],setPage_sound sound sound.header_apart⟩

-- One allocation: the head of the free list, or the next page of the file.
structure Allocated (p : Pager) (free : List Nat) (id : Nat) (q : Pager) (rest : List Nat) : Prop where
  sound : Sound q rest
  source : (free = id :: rest ∧ q.header.pageCount = p.header.pageCount) ∨
    (free = [] ∧ rest = [] ∧ id = p.header.pageCount ∧ q.header.pageCount = p.header.pageCount + 1)
  cleared : q.file.pages[id]? = some Page.zero
  nonzero : id ≠ 0
  whole : p.file.extra = 0 → q.file.extra = 0
  limit : q.file.limit = p.file.limit
  root : q.header.rootPage = p.header.rootPage
  frame : ∀ other, other ≠ 0 → other ≠ id → other < p.header.pageCount →
    q.file.pages[other]? = p.file.pages[other]?

theorem alloc_reuse (sound : Sound p (id :: rest)) :
    ∃ q, allocPage p = .ok id q ∧ Allocated p (id :: rest) id q rest := by
  obtain ⟨start,nonzero,inside,page,found,later⟩ := sound.chain
  obtain ⟨notRest,distinct⟩ := List.nodup_cons.mp sound.distinct
  have locked : pageLocked p id = .ok page := by
    simp [pageLocked,Nat.not_le.mpr inside,found]
  let taken : Pager := {p with
    freeSet := p.freeSet.filter (· ≠ id)
    header := {p.header with freeHead := uint64At page 0,freeCount := dec64 p.header.freeCount}}
  have takenSound : Sound taken rest := {sound with
    chain := chain_frame later (Nat.le_refl _) (fun _ _ => rfl)
    distinct := distinct
    indexed := by
      intro other
      have listed := sound.indexed other
      simp only [List.mem_cons] at listed
      simp only [taken,List.mem_filter,listed,decide_eq_true_eq]
      constructor
      · rintro ⟨same | old,different⟩
        · exact absurd same different
        · exact old
      · intro old
        exact ⟨.inr old,fun same => notRest (same ▸ old)⟩
    counted := by
      have few := sound.free_small
      have small := sound.small
      have count := sound.counted
      simp only [taken,dec64,count,List.length_cons] at few ⊢
      omega}
  have cleared : Sound (taken.setPage id Page.zero) rest := setPage_sound takenSound notRest
  have ran : allocPage p = .ok id ((taken.setPage id Page.zero).setPage metaPageID
      (metaPage (taken.setPage id Page.zero).header)) := by
    have head : p.header.freeHead ≠ 0 := by rw [start]; exact nonzero
    simp only [allocPage,ensureOpen_sound sound]
    rw [if_pos head]
    simp only [start,locked]
    exact (cleared.commits _).1
  refine ⟨_,ran,?_⟩
  have bound : id < p.file.pages.length := Nat.lt_of_lt_of_le inside sound.backed
  refine ⟨(cleared.commits id).2,.inl ⟨rfl,rfl⟩,?_,nonzero,fun whole => whole,rfl,rfl,?_⟩
  · have a : metaPageID ≠ id := nonzero.symm
    simp [List.getElem?_set_ne a,List.getElem?_set_self bound,taken]
  intro other header different _
  have a : metaPageID ≠ other := header.symm
  have b : id ≠ other := different.symm
  simp [List.getElem?_set_ne a,List.getElem?_set_ne b,taken]

theorem Sound.inc (sound : Sound p free) : inc64 p.header.pageCount = p.header.pageCount + 1 := by
  have small := sound.small
  rw [inc64]
  omega

theorem alloc_full (sound : Sound p []) (full : ¬ p.header.pageCount + 1 ≤ p.file.limit) :
    ∃ q, allocPage p = .error .growFailed q := by
  have head : p.header.freeHead = 0 := sound.chain
  refine ⟨{p with mapped := false},?_⟩
  simp only [allocPage,ensureOpen_sound sound]
  rw [if_neg (fun reused => reused head)]
  simp only [sound.inc,resize,DiskFile.truncate,dif_neg full]

theorem alloc_grow (sound : Sound p []) (room : p.header.pageCount + 1 ≤ p.file.limit) :
    ∃ q, allocPage p = .ok p.header.pageCount q ∧ Allocated p [] p.header.pageCount q [] := by
  have head : p.header.freeHead = 0 := sound.chain
  let grown : Pager := {p with
    header := {p.header with pageCount := p.header.pageCount + 1}
    file := {p.file with
      pages := p.file.pages.take (p.header.pageCount + 1) ++
        List.replicate (p.header.pageCount + 1 - p.file.pages.length) Page.zero
      extra := 0
      short := by decide
      fits := by
        rw [List.length_append,List.length_take,List.length_replicate]
        omega}
    mapped := true}
  have backed := sound.backed
  have sized : grown.file.pages.length = p.header.pageCount + 1 := by
    simp only [grown,List.length_append,List.length_take,List.length_replicate]
    omega
  have grownSound : Sound grown [] := {sound with
    mapped := rfl
    positive := Nat.succ_pos _
    backed := by rw [sized]}
  have cleared : Sound (grown.setPage p.header.pageCount Page.zero) [] := setPage_sound grownSound (by simp)
  obtain ⟨_,_,locked⟩ := pageLocked_sound grownSound (Nat.lt_succ_self p.header.pageCount)
  have ran : allocPage p = .ok p.header.pageCount ((grown.setPage p.header.pageCount Page.zero).setPage
      metaPageID (metaPage (grown.setPage p.header.pageCount Page.zero).header)) := by
    have resized : resize {p with header := {p.header with pageCount := inc64 p.header.pageCount}}
        (inc64 p.header.pageCount) = .ok grown := by
      simp only [resize,DiskFile.truncate,sound.inc,dif_pos room]
      rfl
    simp only [allocPage,ensureOpen_sound sound]
    rw [if_neg (fun reused => reused head)]
    simp only [resized,locked]
    exact (cleared.commits _).1
  refine ⟨_,ran,?_⟩
  have headerApart : metaPageID ≠ p.header.pageCount := Nat.ne_of_lt sound.positive
  have last : p.header.pageCount < grown.file.pages.length := by rw [sized]; exact Nat.lt_succ_self _
  refine ⟨(cleared.commits p.header.pageCount).2,.inr ⟨rfl,rfl,rfl,rfl⟩,?_,
    Nat.pos_iff_ne_zero.mp sound.positive,fun _ => rfl,rfl,rfl,?_⟩
  · simp only [setPage_pages,List.getElem?_set_ne headerApart,List.getElem?_set_self last]
  intro other header different inside
  have a : metaPageID ≠ other := header.symm
  have b : p.header.pageCount ≠ other := different.symm
  have c : other < (p.file.pages.take (p.header.pageCount + 1)).length := by
    rw [List.length_take]; omega
  simp only [setPage_pages,List.getElem?_set_ne a,List.getElem?_set_ne b,grown]
  rw [List.getElem?_append_left c,List.getElem?_take,if_pos (by omega)]

-- A page pushed on the free list, before the header page says so.
def pushFree (p : Pager) (id : Nat) : Pager := {p.setPage id (Page.zero.splice 0 (putLE 8 p.header.freeHead)) with
  header := {p.header with freeHead := id,freeCount := inc64 p.header.freeCount}
  freeSet := p.freeSet ++ [id]}

theorem pushFree_sound (sound : Sound p free) (nonzero : id ≠ 0) (inside : id < p.header.pageCount)
    (used : id ∉ free) : Sound (pushFree p id) (id :: free) := by
  have bound : id < p.file.pages.length := Nat.lt_of_lt_of_le inside sound.backed
  have small := sound.small
  have few := sound.free_small
  have headSmall : p.header.freeHead < 2 ^ 64 := by
    have bound := chain_head_inside sound.chain sound.positive
    omega
  have linkAt : uint64At (Page.zero.splice 0 (putLE 8 p.header.freeHead)) 0 = p.header.freeHead := by
    rw [uint64At,Page.slice_same _ (putLE_length _ _) (by decide)]
    exact getLE_putLE_small 8 _ headSmall
  exact {sound with
    backed := by simpa [pushFree] using sound.backed
    chain := by
      refine ⟨rfl,nonzero,inside,Page.zero.splice 0 (putLE 8 p.header.freeHead),?_,?_⟩
      · simp [pushFree,List.getElem?_set_self bound]
      · rw [linkAt]
        refine chain_frame sound.chain (Nat.le_refl _) ?_
        intro other member
        have apart : id ≠ other := fun same => used (same ▸ member)
        simp [pushFree,List.getElem?_set_ne apart]
    distinct := List.nodup_cons.mpr ⟨used,sound.distinct⟩
    indexed := by
      intro other
      rw [pushFree,List.mem_append,List.mem_singleton,sound.indexed other,List.mem_cons]
      exact or_comm
    counted := by
      simp only [pushFree,inc64,sound.counted,List.length_cons]
      omega}

-- Freeing a used page pushes it on the list and touches no other page.
structure Freed (p : Pager) (free : List Nat) (id : Nat) (q : Pager) : Prop where
  sound : Sound q (id :: free)
  linked : q.file.pages[id]? = some (Page.zero.splice 0 (putLE 8 (free.headD 0)))
  count : q.header.pageCount = p.header.pageCount
  extra : q.file.extra = p.file.extra
  limit : q.file.limit = p.file.limit
  root : q.header.rootPage = p.header.rootPage
  frame : ∀ other, other ≠ 0 → other ≠ id → q.file.pages[other]? = p.file.pages[other]?

theorem free_exact (sound : Sound p free) (nonzero : id ≠ 0) (inside : id < p.header.pageCount)
    (used : id ∉ free) : ∃ q, freePage id p = .ok () q ∧ Freed p free id q := by
  obtain ⟨_,_,locked⟩ := pageLocked_sound sound inside
  have bound : id < p.file.pages.length := Nat.lt_of_lt_of_le inside sound.backed
  have unlisted : id ∉ p.freeSet := fun member => used ((sound.indexed id).mp member)
  have linkedSound := pushFree_sound sound nonzero inside used
  have ran : freePage id p = .ok () ((pushFree p id).setPage metaPageID (metaPage (pushFree p id).header)) := by
    simp only [freePage,ensureOpen_sound sound,metaPageID]
    rw [if_neg nonzero,if_neg (Nat.not_le.mpr inside),if_neg unlisted]
    simp only [locked]
    exact (linkedSound.commits _).1
  have start : p.header.freeHead = free.headD 0 := chain_head sound.chain
  refine ⟨_,ran,(linkedSound.commits ()).2,?_,rfl,rfl,rfl,rfl,?_⟩
  · have a : metaPageID ≠ id := nonzero.symm
    simp only [setPage_pages,List.getElem?_set_ne a,pushFree,List.getElem?_set_self bound,start]
  intro other header different
  have a : metaPageID ≠ other := header.symm
  have b : id ≠ other := different.symm
  simp [List.getElem?_set_ne a,List.getElem?_set_ne b,pushFree]

-- Opening checks the whole list, so every opened pager is sound.
theorem walk_exact (walked : walkFreeList p left id seen = .ok found) :
    id = 0 ∧ found = seen ∧ found.length = p.header.freeCount ∨
      ∃ rest page, left = rest + 1 ∧ id ≠ 0 ∧ id < p.header.pageCount ∧ id ∉ seen ∧
        p.file.pages[id]? = some page ∧ walkFreeList p rest (uint64At page 0) (seen ++ [id]) = .ok found := by
  unfold walkFreeList at walked
  split at walked
  · rename_i ended
    split at walked
    · cases walked
    · rename_i counted
      cases walked
      exact .inl ⟨ended,rfl,by simpa using counted⟩
  · rename_i more
    cases left with
    | zero => cases walked
    | succ rest =>
      dsimp only at walked
      split at walked
      · cases walked
      · rename_i inside
        split at walked
        · cases walked
        · rename_i unseen
          cases locked : pageLocked p id with
          | error => simp [locked] at walked
          | ok page =>
            simp only [locked] at walked
            exact .inr ⟨rest,page,rfl,more,Nat.lt_of_not_le inside,unseen,pageLocked_held locked,walked⟩

theorem walk_chain (walked : walkFreeList p left id seen = .ok found) (distinct : seen.Nodup) :
    ∃ tail, found = seen ++ tail ∧ FreeChain p id tail ∧ found.Nodup ∧ found.length = p.header.freeCount := by
  induction left generalizing id seen with
  | zero =>
    rcases walk_exact walked with ⟨rfl,rfl,counted⟩ | ⟨_,_,impossible,_⟩
    · exact ⟨[],by simp,rfl,distinct,counted⟩
    · cases impossible
  | succ _ ih =>
    rcases walk_exact walked with ⟨rfl,rfl,counted⟩ | ⟨_,page,fuel,more,inside,unseen,held,later⟩
    · exact ⟨[],by simp,rfl,distinct,counted⟩
    · cases fuel
      have extended : (seen ++ [id]).Nodup := List.nodup_append_comm.mp (List.nodup_cons.mpr ⟨unseen,distinct⟩)
      obtain ⟨tail,same,chain,all,counted⟩ := ih later extended
      exact ⟨id :: tail,by simpa using same,⟨rfl,more,inside,page,held,chain⟩,all,counted⟩

theorem readMeta_fits (read : readMeta file = .ok h) : h.rootPage < 2 ^ 64 := by
  unfold readMeta at read
  split at read
  · cases read
  repeat' split at read
  all_goals cases read
  rename_i page _ _ _ _
  exact getLE_bound (page.slice 32 8) 8 (by
    simp only [Page.slice,slice,List.length_take]
    omega)

theorem openPager_new (empty : file.size = 0) (room : 1 ≤ file.limit) : ∃ p, openPager file = .ok p ∧ Sound p [] ∧
    p.header = ⟨1,0,0,0⟩ ∧ p.file.limit = file.limit ∧ p.file.extra = 0 := by
  have grown : ∃ grown, file.truncate 1 = some grown ∧ 0 < grown.pages.length ∧ grown.limit = file.limit ∧
      grown.extra = 0 := by
    refine ⟨_,dif_pos room,?_,rfl,rfl⟩
    simp only [List.length_append,List.length_take,List.length_replicate]
    omega
  obtain ⟨grown,truncated,pages,kept⟩ := grown
  let fresh : Pager := ⟨grown,true,false,⟨1,0,0,0⟩,[]⟩
  have freshSound : Sound fresh [] :=
    ⟨rfl,rfl,Nat.one_pos,pages,rfl,List.nodup_nil,fun _ => Iff.rfl,rfl⟩
  have written : openPager file = writeMeta fresh := by
    simp only [openPager,if_pos empty,truncated]
    rfl
  exact ⟨_,written.trans (writeMeta_exact rfl pages),setPage_sound freshSound (by simp),rfl,kept⟩

theorem openPager_sound (opened : openPager file = .ok p) :
    ∃ free, Sound p free ∧ p.file.extra = 0 ∧ p.header.rootPage < 2 ^ 64 := by
  by_cases empty : file.size = 0
  · by_cases room : 1 ≤ file.limit
    · obtain ⟨q,same,sound,header,_,whole⟩ := openPager_new empty room
      rw [opened] at same
      cases same
      exact ⟨[],sound,whole,by rw [header]; decide⟩
    · simp only [openPager,if_pos empty,DiskFile.truncate,dif_neg room] at opened
      cases opened
  · have size : file.size % pageSize = file.extra ∧ file.size / pageSize = file.pages.length := by
      have short := file.short
      unfold DiskFile.size
      unfold pageSize at *
      omega
    unfold openPager at opened
    rw [if_neg empty,size.1,size.2] at opened
    split at opened
    · cases opened
    rename_i whole
    split at opened
    · cases opened
    rename_i read
    split at opened
    · cases opened
    dsimp only at opened
    split at opened
    · cases opened
    · rename_i found walked
      cases opened
      obtain ⟨_,rfl,chain,distinct,counted⟩ := walk_chain walked List.nodup_nil
      refine ⟨_,⟨rfl,rfl,by dsimp only; omega,by dsimp only; omega,chain_frame chain (Nat.le_refl _) (fun _ _ => rfl),
        distinct,fun _ => Iff.rfl,counted.symm⟩,not_not.mp whole,readMeta_fits read⟩

end Kronos.PageStore
