import Kronos.PageStoreSound

namespace Kronos.PagerRuns
open ByteRange BTreeNode PageStore

-- Flush writes the header; the mapping then goes to the file it is shared with.
def flush : KV Unit := fun p =>
  match ensureOpen p with
  | some fault => .error fault p
  | none => commitMeta p ()

-- Close goes on after an error and reports the first.
def closePager : KV Unit := fun p =>
  if p.closed then .ok () p
  else match writeMeta p with
    | .error fault => .error fault {p with mapped := false,closed := true}
    | .ok written => .ok () {written with mapped := false,closed := true}

-- The pager with the pages its callers were given since it was first opened.
structure State where
  pager : Pager
  held : List Nat

-- What callers do: the pager's calls, also those it refuses, stores to a page
-- that is not free, and closing and opening again. A page file that cannot grow
-- is a failure of the disk.
inductive Step : State → State → Prop
  | alloc {p q : Pager} {held : List Nat} {id : Nat} (ran : allocPage p = .ok id q) : Step ⟨p,held⟩ ⟨q,id :: held⟩
  | free {p q : Pager} {held : List Nat} {id : Nat} (ran : freePage id p = .ok () q) :
      Step ⟨p,held⟩ ⟨q,held.filter (· ≠ id)⟩
  | refuseFree {p q : Pager} {held : List Nat} {id : Nat} {fault : Fault} (ran : freePage id p = .error fault q) :
      Step ⟨p,held⟩ ⟨q,held⟩
  | setRoot {p q : Pager} {held : List Nat} {id : Nat} (ran : setRootPage id p = .ok () q) : Step ⟨p,held⟩ ⟨q,held⟩
  | refuseRoot {p q : Pager} {held : List Nat} {id : Nat} {fault : Fault} (ran : setRootPage id p = .error fault q) :
      Step ⟨p,held⟩ ⟨q,held⟩
  | flush {p q : Pager} {held : List Nat} (ran : flush p = .ok () q) : Step ⟨p,held⟩ ⟨q,held⟩
  | write {p : Pager} {held : List Nat} {id : Nat} {old : Page} (page : Page) (given : Pager.page id p = .ok old p)
      (used : id ∉ p.freeSet) : Step ⟨p,held⟩ ⟨p.setPage id page,held⟩
  | reopen {p closed q : Pager} {held : List Nat} (ran : closePager p = .ok () closed)
      (opened : openPager closed.file = .ok q) : Step ⟨p,held⟩ ⟨q,held⟩

inductive Reached : State → Prop
  | start {file : DiskFile} {p : Pager} (opened : openPager file = .ok p) : Reached ⟨p,[]⟩
  | step {s next : State} (before : Reached s) (step : Step s next) : Reached next

def InUse (p : Pager) (id : Nat) : Prop := id ≠ 0 ∧ id < p.header.pageCount ∧ id ∉ p.freeSet

-- The linked list, the set and the count are of the same pages.
structure Agrees (p : Pager) (free : List Nat) : Prop where
  distinct : free.Nodup
  chain : FreeChain p p.header.freeHead free
  indexed : ∀ id, id ∈ p.freeSet ↔ id ∈ free
  counted : p.header.freeCount = free.length

-- No page that is in use, or that a caller holds, is given out.
def GivesFresh (s : State) : Prop :=
  ∀ id q, allocPage s.pager = .ok id q → id ≠ 0 ∧ id ∉ s.held ∧ ¬ InUse s.pager id

-- Close succeeds, and what it leaves opens as the same pager.
def Reopens (p : Pager) : Prop :=
  ∃ closed q, closePager p = .ok () closed ∧ openPager closed.file = .ok q ∧
    q.header.pageCount = p.header.pageCount ∧ q.header.rootPage = p.header.rootPage ∧
    ∀ id, id ∈ q.freeSet ↔ id ∈ p.freeSet

section
variable {p q : Pager} {free : List Nat} {id : Nat} {s next : State} {fault : Fault}

theorem metaPage_fields (h : PagerMeta) : (metaPage h).slice 0 4 = pagerMagic ∧
    (metaPage h).slice 4 2 = putLE 2 pagerVersion ∧ (metaPage h).slice 6 2 = putLE 2 pageSize ∧
    (metaPage h).slice 8 8 = putLE 8 h.pageCount ∧ (metaPage h).slice 16 8 = putLE 8 h.freeHead ∧
    (metaPage h).slice 24 8 = putLE 8 h.freeCount ∧ (metaPage h).slice 32 8 = putLE 8 h.rootPage := by
  unfold metaPage
  refine ⟨?_,?_,?_,?_,?_,?_,?_⟩
  all_goals repeat rw [Page.slice_apart _ (putLE_length _ _) (by omega)]
  · exact Page.slice_same _ (by decide) (by decide)
  all_goals exact Page.slice_same _ (putLE_length _ _) (by decide)

structure Fits (h : PagerMeta) : Prop where
  pageCount : h.pageCount < 2 ^ 64
  freeHead : h.freeHead < 2 ^ 64
  freeCount : h.freeCount < 2 ^ 64
  rootPage : h.rootPage < 2 ^ 64

theorem readMeta_metaPage (first : file.pages.head? = some (metaPage h)) (fits : Fits h) : readMeta file = .ok h := by
  obtain ⟨magic,version,size,count,head,free,root⟩ := metaPage_fields h
  unfold readMeta uint16At uint64At
  rw [first]
  dsimp only
  rw [magic,version,size,count,head,free,root,getLE_putLE_small 2 _ (by decide),getLE_putLE_small 2 _ (by decide),
    getLE_putLE_small 8 _ fits.pageCount,getLE_putLE_small 8 _ fits.freeHead,getLE_putLE_small 8 _ fits.freeCount,
    getLE_putLE_small 8 _ fits.rootPage,if_neg (by simp),if_neg (by simp),if_neg (by simp)]

theorem walk_complete {rest seen : List Nat} (chain : FreeChain p id rest) (distinct : (seen ++ rest).Nodup)
    (counted : (seen ++ rest).length = p.header.freeCount) :
    walkFreeList p rest.length id seen = .ok (seen ++ rest) := by
  induction rest generalizing id seen with
  | nil =>
    rw [List.append_nil] at counted ⊢
    unfold walkFreeList
    rw [if_pos (show id = 0 from chain),if_neg (by simp [counted])]
  | cons _ _ ih =>
    obtain ⟨rfl,nonzero,inside,page,found,later⟩ := chain
    have locked : pageLocked p id = .ok page := by
      unfold pageLocked
      rw [if_neg (Nat.not_le_of_lt inside),found]
    have unseen : id ∉ seen := by
      intro member
      exact (List.nodup_append.mp distinct).2.2 id member id (List.mem_cons_self ..) rfl
    rw [List.append_cons] at distinct counted ⊢
    unfold walkFreeList
    rw [if_neg nonzero]
    dsimp only [List.length_cons]
    rw [if_neg (Nat.not_le_of_lt inside),if_neg unseen,locked]
    exact ih later distinct counted

theorem openPager_whole (whole : file.extra = 0) (first : file.pages.head? = some (metaPage h)) (fits : Fits h)
    (positive : 0 < h.pageCount) (backed : h.pageCount ≤ file.pages.length)
    (chain : FreeChain ⟨file,true,false,h,[]⟩ h.freeHead free) (distinct : free.Nodup)
    (counted : h.freeCount = free.length) : openPager file = .ok ⟨file,true,false,h,free⟩ := by
  have size : file.size = file.pages.length * pageSize := by rw [DiskFile.size,whole,Nat.add_zero]
  have shown : 0 < pageSize := by decide
  have walked := @walk_complete _ _ _ [] chain distinct counted.symm
  unfold openPager
  rw [size,if_neg (Nat.mul_ne_zero (by omega) (by omega)),if_neg (by simp),readMeta_metaPage first fits]
  dsimp only
  rw [Nat.mul_div_cancel _ shown,if_neg (by omega)]
  rw [List.nil_append,← counted] at walked
  rw [walked]

structure Invariant (s : State) (free : List Nat) : Prop where
  sound : Sound s.pager free
  whole : s.pager.file.extra = 0
  root : s.pager.header.rootPage < 2 ^ 64
  held : ∀ id ∈ s.held, id ≠ 0 ∧ id < s.pager.header.pageCount ∧ id ∉ free

theorem sound_fits (sound : Sound p free) (root : p.header.rootPage < 2 ^ 64) : Fits p.header := by
  have small := sound.small
  have few := sound.free_small
  have counted := sound.counted
  have head := chain_head_inside sound.chain sound.positive
  exact ⟨by omega,by omega,by omega,root⟩

theorem reopened_sound (sound : Sound p free) :
    Sound ⟨(p.setPage metaPageID (metaPage p.header)).file,true,false,p.header,free⟩ free := {sound with
  opened := rfl
  mapped := rfl
  backed := by simpa using sound.backed
  chain := chain_frame (setPage_sound sound sound.header_apart).chain (Nat.le_refl _) (fun _ _ => rfl)
  indexed := fun _ => Iff.rfl}

theorem reopen_exact (sound : Sound p free) (whole : p.file.extra = 0) (root : p.header.rootPage < 2 ^ 64) :
    ∃ closed, closePager p = .ok () closed ∧
      openPager closed.file = .ok ⟨(p.setPage metaPageID (metaPage p.header)).file,true,false,p.header,free⟩ := by
  have some_page : 0 < p.file.pages.length := Nat.lt_of_lt_of_le sound.positive sound.backed
  have closes : closePager p = .ok () {p.setPage metaPageID (metaPage p.header) with mapped := false,closed := true} := by
    unfold closePager
    rw [sound.opened,writeMeta_exact sound.mapped some_page]
    rfl
  have again := reopened_sound sound
  refine ⟨_,closes,openPager_whole whole ?_ (sound_fits sound root) sound.positive again.backed ?_ sound.distinct
    sound.counted⟩
  · change (p.file.pages.set 0 _).head? = _
    rw [List.head?_eq_getElem?,List.getElem?_set_self some_page]
  · exact chain_frame again.chain (Nat.le_refl _) (fun _ _ => rfl)

theorem commitMeta_parts {a b : α} (ran : commitMeta p a = .ok b q) : q = p.setPage metaPageID (metaPage p.header) := by
  unfold commitMeta writeMeta at ran
  split at ran
  · cases ran
  · rename_i written
    split at written
    · cases written
    · cases written
      cases ran
      rfl

theorem allocPage_allocated (sound : Sound p free) (ran : allocPage p = .ok id q) : ∃ rest, Allocated p free id q rest := by
  cases free with
  | cons _ rest =>
    obtain ⟨_,same,allocated⟩ := alloc_reuse sound
    rw [ran] at same
    cases same
    exact ⟨rest,allocated⟩
  | nil =>
    by_cases room : p.header.pageCount + 1 ≤ p.file.limit
    · obtain ⟨_,same,allocated⟩ := alloc_grow sound room
      rw [ran] at same
      cases same
      exact ⟨[],allocated⟩
    · obtain ⟨_,failed⟩ := alloc_full sound room
      rw [ran] at failed
      cases failed

theorem allocated_fresh (sound : Sound p free) (allocated : Allocated p free id q rest) : id ∉ rest ∧
    id < q.header.pageCount ∧ p.header.pageCount ≤ q.header.pageCount ∧ (id ∈ free ∨ id = p.header.pageCount) ∧
    ∀ other ∈ rest, other ∈ free := by
  rcases allocated.source with ⟨rfl,_⟩ | ⟨rfl,rfl,rfl,_⟩
  · have inside := (chain_members sound.chain id (List.mem_cons_self ..)).2
    exact ⟨(List.nodup_cons.mp sound.distinct).1,by omega,by omega,.inl (List.mem_cons_self ..),
      fun _ member => List.mem_cons_of_mem _ member⟩
  · exact ⟨nofun,by omega,by omega,.inr rfl,nofun⟩

theorem alloc_preserves (holds : Invariant ⟨p,held⟩ free) (ran : allocPage p = .ok id q) :
    ∃ rest, Invariant ⟨q,id :: held⟩ rest := by
  obtain ⟨rest,allocated⟩ := allocPage_allocated holds.sound ran
  obtain ⟨apart,inside,more,_,fewer⟩ := allocated_fresh holds.sound allocated
  refine ⟨rest,allocated.sound,allocated.whole holds.whole,?_,?_⟩
  · change q.header.rootPage < _
    rw [allocated.root]
    exact holds.root
  · intro other member
    rcases List.mem_cons.mp member with rfl | old
    · exact ⟨allocated.nonzero,inside,apart⟩
    · obtain ⟨nonzero,within,used⟩ := holds.held other old
      exact ⟨nonzero,Nat.lt_of_lt_of_le within more,fun listed => used (fewer other listed)⟩

theorem root_sound (sound : Sound p free) : Sound {p with header := {p.header with rootPage := root}} free :=
  {sound with chain := chain_frame sound.chain (Nat.le_refl _) (fun _ _ => rfl)}

theorem freePage_exact (sound : Sound p free) (id : Nat) : (∃ fault, freePage id p = .error fault p) ∨
    id ∉ free ∧ ∃ q, freePage id p = .ok () q ∧ Freed p free id q := by
  by_cases zero : id = metaPageID
  · exact .inl ⟨.freeMetaPage,by simp [freePage,ensureOpen_sound sound,zero]⟩
  by_cases outside : p.header.pageCount ≤ id
  · exact .inl ⟨.pageOutOfRange id,by simp [freePage,ensureOpen_sound sound,zero,outside]⟩
  by_cases listed : id ∈ p.freeSet
  · exact .inl ⟨.alreadyFree id,by simp [freePage,ensureOpen_sound sound,zero,outside,listed]⟩
  · have used : id ∉ free := (sound.indexed id).not.mp listed
    exact .inr ⟨used,free_exact sound zero (Nat.lt_of_not_le outside) used⟩

theorem freePage_refused (sound : Sound p free) (ran : freePage id p = .error fault q) : q = p := by
  rcases freePage_exact sound id with ⟨_,same⟩ | ⟨_,_,same,_⟩
  · rw [same] at ran
    cases ran
    rfl
  · cases same.symm.trans ran

theorem setRootPage_refused (sound : Sound p free) (ran : setRootPage id p = .error fault q) : q = p := by
  unfold setRootPage at ran
  rw [ensureOpen_sound sound] at ran
  dsimp only at ran
  split at ran
  · cases ran
    rfl
  · rw [((root_sound sound).commits ()).1] at ran
    cases ran

theorem freePage_freed (sound : Sound p free) (ran : freePage id p = .ok () q) : id ∉ free ∧ Freed p free id q := by
  rcases freePage_exact sound id with ⟨_,same⟩ | ⟨used,_,same,freed⟩
  · cases same.symm.trans ran
  · rw [same] at ran
    cases ran
    exact ⟨used,freed⟩

theorem setRootPage_parts (ran : setRootPage id p = .ok () q) :
    (id = 0 ∨ id < p.header.pageCount) ∧ q = ({p with header := {p.header with rootPage := id}} : Pager).setPage
      metaPageID (metaPage {p.header with rootPage := id}) := by
  unfold setRootPage at ran
  split at ran
  · cases ran
  split at ran
  · cases ran
  rename_i inside
  refine ⟨?_,commitMeta_parts ran⟩
  by_cases zero : id = 0
  · exact .inl zero
  · exact .inr (Nat.lt_of_not_le fun outside => inside ⟨zero,outside⟩)

theorem Invariant.stored {held : List Nat} (holds : Invariant ⟨p,held⟩ free) (used : id ∉ free) :
    Invariant ⟨p.setPage id page,held⟩ free :=
  ⟨setPage_sound holds.sound used,holds.whole,holds.root,holds.held⟩

theorem step_preserves (step : Step s next) (holds : Invariant s free) : ∃ rest, Invariant next rest := by
  cases step with
  | alloc ran => exact alloc_preserves holds ran
  | @free p q held id ran =>
    obtain ⟨_,freed⟩ := freePage_freed holds.sound ran
    refine ⟨id :: free,freed.sound,freed.extra.trans holds.whole,?_,?_⟩
    · change q.header.rootPage < _
      rw [freed.root]
      exact holds.root
    · intro other member
      obtain ⟨old,apart⟩ := List.mem_filter.mp member
      obtain ⟨nonzero,within,unlisted⟩ := holds.held other old
      refine ⟨nonzero,Nat.lt_of_lt_of_eq within freed.count.symm,?_⟩
      rw [List.mem_cons,not_or]
      exact ⟨by simpa using apart,unlisted⟩
  | refuseFree ran =>
    rw [freePage_refused holds.sound ran]
    exact ⟨free,holds⟩
  | @setRoot p q held id ran =>
    obtain ⟨inside,rfl⟩ := setRootPage_parts ran
    have small := holds.sound.small
    refine ⟨free,setPage_sound (root_sound holds.sound) holds.sound.header_apart,holds.whole,?_,holds.held⟩
    change id < _
    rcases inside with rfl | inside
    · decide
    · change id < p.header.pageCount at inside
      have small : p.header.pageCount < 2 ^ 51 := small
      omega
  | refuseRoot ran =>
    rw [setRootPage_refused holds.sound ran]
    exact ⟨free,holds⟩
  | flush ran =>
    unfold flush at ran
    rw [ensureOpen_sound holds.sound] at ran
    rw [commitMeta_parts ran]
    exact ⟨free,holds.stored holds.sound.header_apart⟩
  | write _ _ used => exact ⟨free,holds.stored fun member => used ((holds.sound.indexed _).mpr member)⟩
  | @reopen p closed q held ran opened =>
    obtain ⟨_,same,again⟩ := reopen_exact holds.sound holds.whole holds.root
    rw [ran] at same
    cases same
    rw [opened] at again
    cases again
    exact ⟨free,reopened_sound holds.sound,holds.whole,holds.root,holds.held⟩

theorem openPager_invariant (opened : openPager file = .ok p) : ∃ free, Invariant ⟨p,[]⟩ free := by
  obtain ⟨free,sound,whole,root⟩ := openPager_sound opened
  exact ⟨free,sound,whole,root,nofun⟩

theorem reached_invariant (reached : Reached s) : ∃ free, Invariant s free := by
  induction reached with
  | start opened => exact openPager_invariant opened
  | step _ step ih =>
    obtain ⟨_,holds⟩ := ih
    exact step_preserves step holds

theorem Invariant.givesFresh (holds : Invariant s free) : GivesFresh s := by
  intro id q ran
  obtain ⟨_,allocated⟩ := allocPage_allocated holds.sound ran
  obtain ⟨_,_,_,source,_⟩ := allocated_fresh holds.sound allocated
  refine ⟨allocated.nonzero,?_,?_⟩
  · intro member
    obtain ⟨_,inside,used⟩ := holds.held id member
    rcases source with listed | rfl
    · exact used listed
    · exact Nat.lt_irrefl _ inside
  · rintro ⟨_,inside,unlisted⟩
    rcases source with listed | rfl
    · exact unlisted ((holds.sound.indexed id).mpr listed)
    · exact Nat.lt_irrefl _ inside

theorem Invariant.reopens (holds : Invariant s free) : Reopens s.pager := by
  obtain ⟨closed,closes,opens⟩ := reopen_exact holds.sound holds.whole holds.root
  exact ⟨closed,_,closes,opens,rfl,rfl,fun id => (holds.sound.indexed id).symm⟩

-- In every state callers can bring a page file to.
theorem free_list_durable (reached : Reached s) : (∃ free, Agrees s.pager free) ∧ GivesFresh s ∧ Reopens s.pager := by
  obtain ⟨free,holds⟩ := reached_invariant reached
  have agrees : Agrees s.pager free :=
    ⟨holds.sound.distinct,holds.sound.chain,holds.sound.indexed,holds.sound.counted⟩
  exact ⟨⟨free,agrees⟩,holds.givesFresh,holds.reopens⟩

theorem freed_page_listed : ∃ s, Reached s ∧ s.held = [2] ∧ s.pager.header.freeHead = 1 ∧
    (∃ free, Agrees s.pager free) ∧ GivesFresh s ∧ Reopens s.pager := by
  let file : DiskFile := ⟨[],0,by decide,8,by decide,by decide⟩
  have empty : file.size = 0 := by simp [DiskFile.size,file]
  obtain ⟨p,opened,sound,header,limit,_⟩ := openPager_new empty (by decide)
  have count : p.header.pageCount = 1 := by rw [header]
  have room : p.file.limit = 8 := limit
  obtain ⟨q,first,one⟩ := alloc_grow sound (by omega)
  rw [count] at first one
  have grown : q.header.pageCount = 2 := by
    rcases one.source with ⟨listed,_⟩ | ⟨_,_,_,_⟩
    · cases listed
    · omega
  have room : q.file.limit = 8 := one.limit.trans room
  obtain ⟨r,second,two⟩ := alloc_grow one.sound (by omega)
  rw [grown] at second two
  have grown : r.header.pageCount = 3 := by
    rcases two.source with ⟨listed,_⟩ | ⟨_,_,_,_⟩
    · cases listed
    · omega
  obtain ⟨t,third,freed⟩ := free_exact two.sound (show 1 ≠ 0 by decide) (by omega) (show 1 ∉ [] by decide)
  have reached : Reached ⟨t,[2]⟩ :=
    .step (.step (.step (.start opened) (.alloc first)) (.alloc second)) (.free third)
  exact ⟨_,reached,rfl,freed.sound.chain.1,free_list_durable reached⟩

end
end Kronos.PagerRuns
