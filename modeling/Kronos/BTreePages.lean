import Kronos.BTreeSafety

namespace Kronos.BTreePages
open ByteRange SortedRun BTreeNode BTree BTreeShape BTreePut BTreeDelete BTreeRuns BTreeChain
  BTreeSafety PageStore BTreePager NodeHeap Effect

-- A chain of child pointers from one page to another, by the place each pointer
-- has in its branch.
def Leads (p : Pager) : Nat → List Nat → Nat → Prop
  | start,[],id => id = start
  | start,index :: path,id => ∃ node q entry, BTreePager.readNode start p = .ok node q ∧ node.typ = .branch ∧
      node.entries[index]? = some entry ∧ Leads p entry.child path id

def Listed (p : Pager) (id : Nat) : Prop := ∃ free, FreeChain p p.header.freeHead free ∧ id ∈ free

-- Every page but the header page is on the free list, or one chain leads to it
-- from the root, and not both.
def Accounted (root : Nat) (p : Pager) : Prop :=
  ∀ id, id ≠ 0 → id < p.header.pageCount →
    (Listed p id ∧ ¬ ∃ path, Leads p root path id) ∨ (¬ Listed p id ∧ ∃! path, Leads p root path id)

def Fresh (root : Nat) (allowed : List Operation → Pager → Operation → Prop) (ops : List Operation) (p : Pager) : Prop :=
  ∃ file opened made, file.size = 0 ∧ openPager file = .ok opened ∧ createBTree pagerStore opened = .ok root made ∧
    Steps root allowed made ops p

-- A Delete of a live key under a root branch leaves the root two children at
-- least, and another live key under the child the key lies under.
def Tidy (root : Nat) (ops : List Operation) (p : Pager) : Operation → Prop
  | .put _ _ => True
  | .delete key => lastValue ops key = none ∨ ∀ node q, BTreePager.readNode root p = .ok node q → node.typ = .branch →
      2 ≤ node.entries.length ∧ ∃ other, other ≠ key ∧ lastValue ops other ≠ none ∧
        childIndexFor node.entries other = childIndexFor node.entries key

variable {p q : Pager} {h t : Heap} {root id height lost start : Nat} {key value : Bytes} {leaves : List Node}
  {node : Node} {entry : Entry} {entries : List Entry} {ops : List Operation} {pages total : Multiset Nat}
  {path : List Nat}

theorem listed_exact (tracks : Tracks p h) : Listed p id ↔ id ∈ h.free := by
  constructor
  · rintro ⟨free,chain,member⟩
    rwa [← chain_unique chain tracks.sound.chain]
  · exact fun member => ⟨h.free,tracks.sound.chain,member⟩

theorem read_found (tracks : Tracks p h) (owned : Owned h pages) (member : id ∈ pages) (found : h.nodes id = .ok node) :
    ∃ q, BTreePager.readNode id p = .ok node q := by
  obtain ⟨q,_,low,_⟩ := follows_ok (readNode_simulates id) tracks (by rw [read_exact owned member found]; rfl)
  exact ⟨q,low⟩

theorem kids_place {index : Nat} {child : Nat → List Node → Multiset Nat → Prop}
    (kids : Kids child entries leaves pages) (placed : entries[index]? = some entry) :
    ∃ part held, child entry.child part held ∧ held ≤ pages := by
  induction entries generalizing index leaves pages with
  | nil => simp at placed
  | cons _ _ ih =>
    obtain ⟨a,p,_,q,sub,_,others,rfl,rfl⟩ := kids
    cases index with
    | zero =>
      cases Option.some.inj placed
      exact ⟨a,p,sub,Multiset.le_add_right p q⟩
    | succ =>
      obtain ⟨part,held,kid,fewer⟩ := ih others placed
      exact ⟨part,held,kid,le_trans fewer (Multiset.le_add_left q p)⟩

theorem kids_apart {index : Nat} {child : Nat → List Node → Multiset Nat → Prop} {under : Nat → Prop}
    (inside : ∀ child' leaves part, part ≤ total → child child' leaves part → under child' → id ∈ part)
    (kids : Kids child entries leaves pages) (fewer : pages ≤ total) (distinct : pages.Nodup)
    (placed : entries[index]? = some entry) (placedToo : entries[other]? = some again) (here : under entry.child)
    (there : under again.child) : index = other := by
  induction entries generalizing index other leaves pages with
  | nil => simp at placed
  | cons _ rest ih =>
    obtain ⟨_,p,_,q,sub,_,others,rfl,rfl⟩ := kids
    obtain ⟨_,restDistinct,apart⟩ := Multiset.nodup_add.mp distinct
    have firstFewer := le_trans (Multiset.le_add_right p q) fewer
    have restFewer := le_trans (Multiset.le_add_left q p) fewer
    have later : ∀ {place : Nat} {e : Entry}, rest[place]? = some e → under e.child → id ∈ q := by
      intro place e found below
      obtain ⟨_,_,kid,less⟩ := kids_place others found
      exact Multiset.mem_of_le less (inside _ _ _ (le_trans less restFewer) kid below)
    cases index with
    | zero =>
      cases Option.some.inj placed
      cases other with
      | zero => rfl
      | succ =>
        exact absurd (later placedToo there) (Multiset.disjoint_left.mp apart (inside _ _ _ firstFewer sub here))
    | succ =>
      cases other with
      | zero =>
        cases Option.some.inj placedToo
        exact absurd (later placed here) (Multiset.disjoint_left.mp apart (inside _ _ _ firstFewer sub there))
      | succ => rw [ih others restFewer restDistinct placed placedToo]

theorem leads_inside (tracks : Tracks p h) (owned : Owned h total) (sub : Subtree h.nodes height start leaves pages)
    (fewer : pages ≤ total) (leads : Leads p start path id) : id ∈ pages := by
  induction path generalizing start height leaves pages with
  | nil =>
    obtain ⟨_,_,_,_,held⟩ := subtree_root sub
    exact leads ▸ held
  | cons _ _ ih =>
    obtain ⟨_,_,_,read,typ,placed,onward⟩ := leads
    obtain ⟨_,_,_,_,held⟩ := subtree_root sub
    have found := read_tree tracks owned (Multiset.mem_of_le fewer held) read
    cases height with
    | zero =>
      obtain ⟨_,again,_,leafTyp,_⟩ := sub
      cases found.symm.trans again
      rw [leafTyp] at typ
      cases typ
    | succ =>
      obtain ⟨_,inner,again,_,_,_,_,kids,rfl⟩ := sub
      cases found.symm.trans again
      obtain ⟨_,some,kid,less⟩ := kids_place kids placed
      have within : some ≤ start ::ₘ inner := le_trans less (Multiset.le_cons_self _ _)
      exact Multiset.mem_of_le within (ih kid (le_trans within fewer) onward)

theorem leads_unique (tracks : Tracks p h) (owned : Owned h total) (sub : Subtree h.nodes height start leaves pages)
    (fewer : pages ≤ total) {other : List Nat} (leads : Leads p start path id) (leadsToo : Leads p start other id) :
    path = other := by
  have distinct : pages.Nodup := Multiset.nodup_of_le fewer owned.nodup
  induction height generalizing start leaves pages path other with
  | zero =>
    have stays : ∀ {way : List Nat}, Leads p start way id → way = [] := by
      intro way leads
      cases way with
      | nil => rfl
      | cons =>
        obtain ⟨node,_,entry,read,typ,_⟩ := leads
        obtain ⟨_,again,_,leafTyp,_,_,rfl⟩ := sub
        have found := read_tree tracks owned (Multiset.mem_of_le fewer (by simp)) read
        cases found.symm.trans again
        rw [leafTyp] at typ
        cases typ
    rw [stays leads,stays leadsToo]
  | succ height ih =>
    obtain ⟨node,inner,found,_,_,_,_,kids,rfl⟩ := sub
    have atRoot : start ∈ total := Multiset.mem_of_le fewer (by simp)
    have less : inner ≤ total := le_trans (Multiset.le_cons_self _ _) fewer
    obtain ⟨apart,innerDistinct⟩ := Multiset.nodup_cons.mp distinct
    -- A chain of at least one pointer ends below the root.
    have down : ∀ {index : Nat} {way : List Nat}, Leads p start (index :: way) id → ∃ entry,
        node.entries[index]? = some entry ∧ Leads p entry.child way id ∧ id ∈ inner := by
      rintro _ way ⟨_,_,entry,read,_,placed,onward⟩
      cases (read_tree tracks owned atRoot read).symm.trans found
      obtain ⟨part,held,kid,under⟩ := kids_place kids placed
      exact ⟨entry,placed,onward,Multiset.mem_of_le under (leads_inside tracks owned kid (le_trans under less) onward)⟩
    cases path with
    | nil =>
      cases other with
      | nil => rfl
      | cons =>
        obtain ⟨_,_,_,member⟩ := down leadsToo
        exact absurd ((show id = start from leads) ▸ member) apart
    | cons _ path =>
      obtain ⟨_,placed,onward,member⟩ := down leads
      cases other with
      | nil => exact absurd ((show id = start from leadsToo) ▸ member) apart
      | cons _ way =>
        obtain ⟨_,placedToo,onwardToo,_⟩ := down leadsToo
        have bounded : ∀ child leaves part, part ≤ total → Subtree h.nodes height child leaves part →
            (∃ way, Leads p child way id) → id ∈ part := by
          rintro _ _ _ held kid ⟨_,below⟩
          exact leads_inside tracks owned kid held below
        obtain rfl := kids_apart bounded kids less innerDistinct placed placedToo ⟨path,onward⟩ ⟨way,onwardToo⟩
        cases placed.symm.trans placedToo
        obtain ⟨_,_,kid,under⟩ := kids_place kids placed
        have within := le_trans under (Multiset.le_cons_self inner start)
        rw [ih kid (le_trans within fewer) onward onwardToo (Multiset.nodup_of_le within distinct)]

theorem kids_inside {child : Nat → List Node → Multiset Nat → Prop} (kids : Kids child entries leaves pages)
    (member : id ∈ pages) : ∃ (index : Nat) (entry : Entry) (part : List Node) (held : Multiset Nat),
      entries[index]? = some entry ∧ child entry.child part held ∧ held ≤ pages ∧ id ∈ held := by
  induction entries generalizing leaves pages with
  | nil =>
    obtain ⟨_,rfl⟩ := kids
    simp at member
  | cons first _ ih =>
    obtain ⟨a,p,_,q,sub,_,others,rfl,rfl⟩ := kids
    rcases Multiset.mem_add.mp member with here | later
    · exact ⟨0,first,a,p,rfl,sub,Multiset.le_add_right p q,here⟩
    · obtain ⟨index,entry,part,held,placed,kid,fewer,inside⟩ := ih others later
      exact ⟨index+1,entry,part,held,placed,kid,le_trans fewer (Multiset.le_add_left q p),inside⟩

theorem leads_exists (tracks : Tracks p h) (owned : Owned h total) (sub : Subtree h.nodes height start leaves pages)
    (fewer : pages ≤ total) (member : id ∈ pages) : ∃ path, Leads p start path id := by
  induction height generalizing start leaves pages with
  | zero =>
    obtain ⟨_,_,_,_,_,_,rfl⟩ := sub
    exact ⟨[],Multiset.mem_singleton.mp member⟩
  | succ _ ih =>
    obtain ⟨node,inner,found,_,typ,_,_,kids,rfl⟩ := sub
    rcases Multiset.mem_cons.mp member with top | below
    · exact ⟨[],top⟩
    · obtain ⟨index,entry,_,_,placed,kid,less,inside⟩ := kids_inside kids below
      have within := le_trans less (Multiset.le_cons_self inner start)
      obtain ⟨path,onward⟩ := ih kid (le_trans within fewer) inside
      obtain ⟨q,read⟩ := read_found tracks owned (Multiset.mem_of_le fewer (by simp)) found
      exact ⟨index :: path,node,q,entry,read,typ,placed,onward⟩

-- The pages a tree is made of are those chains lead to, one chain to each.
structure Spans (root : Nat) (p : Pager) (pages : Multiset Nat) : Prop where
  reached : ∀ id, (∃ path, Leads p root path id) ↔ id ∈ pages
  single : ∀ id path other, Leads p root path id → Leads p root other id → path = other

theorem tree_spans (tracks : Tracks p h) (owned : Owned h pages) (sub : Subtree h.nodes height root leaves pages) :
    Spans root p pages where
  reached := fun _ => ⟨fun ⟨_,leads⟩ => leads_inside tracks owned sub (le_refl _) leads,
    fun member => leads_exists tracks owned sub (le_refl _) member⟩
  single := fun _ _ _ leads leadsToo => leads_unique tracks owned sub (le_refl _) leads leadsToo

theorem hollow_spans (tracks : Tracks p h) (hollow : Hollow h root) : Spans root p {root} := by
  obtain ⟨⟨_,found,_,_,empty⟩,owned⟩ := hollow
  have stays : ∀ {path : List Nat} {id : Nat}, Leads p root path id → path = [] ∧ id = root := by
    intro path id leads
    cases path with
    | nil => exact ⟨rfl,leads⟩
    | cons =>
      obtain ⟨_,_,_,read,_,placed,_⟩ := leads
      cases (read_tree tracks owned (by simp) read).symm.trans found
      simp [empty] at placed
  refine ⟨fun id => ⟨fun ⟨_,leads⟩ => by simp [(stays leads).2],fun member => ⟨[],Multiset.mem_singleton.mp member⟩⟩,?_⟩
  intro id path other leads leadsToo
  rw [(stays leads).1,(stays leadsToo).1]

theorem accounted_exact (tracks : Tracks p h) (counted : Counted lost h pages) (spans : Spans root p pages) :
    Accounted root p ↔ lost = 0 := by
  rw [counted.full]
  constructor
  · intro accounted id nonzero inside
    rcases accounted id nonzero (tracks.count ▸ inside) with ⟨listed,_⟩ | ⟨_,path,leads,_⟩
    · exact .inr ((listed_exact tracks).mp listed)
    · exact .inl ((spans.reached id).mp ⟨path,leads⟩)
  · intro all id nonzero inside
    rw [listed_exact tracks]
    rcases all id nonzero (tracks.count ▸ inside) with held | free
    · obtain ⟨path,leads⟩ := (spans.reached id).mpr held
      exact .inr ⟨counted.used held,path,leads,fun other leadsToo => spans.single id other path leadsToo leads⟩
    · exact .inl ⟨free,fun leads => counted.used ((spans.reached id).mp leads) free⟩

-- A history with the pages it lost on the way.
inductive Ledger (lost : Nat) (h : Heap) (root : Nat) (ops : List Operation) : Prop where
  | tree {leaves : List Node} : Holds h root ops leaves → Planted lost h root leaves → Ledger lost h root ops
  | hollow : Hollow h root → Counted lost h {root} → Ledger lost h root ops

theorem ledger_exact (tracks : Tracks p h) (ledger : Ledger lost h root ops) : Accounted root p ↔ lost = 0 := by
  cases ledger with
  | tree _ planted =>
    obtain ⟨⟨_,_,sub,_,counted⟩,_⟩ := planted
    exact accounted_exact tracks counted (tree_spans tracks counted.toOwned sub)
  | hollow hollow counted => exact accounted_exact tracks counted (hollow_spans tracks hollow)

theorem live_exact (holds : Holds h root ops leaves) (key : Bytes) :
    lastValue ops key ≠ none ↔ ∃ e ∈ contents leaves, e.key = key := by
  rw [← holds.exact key]
  constructor
  · intro live
    cases found : find Entry.key (contents leaves) key with
    | none => simp [found] at live
    | some e => exact ⟨e,(find_exact Entry.key holds.rooted.sorted key e).mp found⟩
  · rintro ⟨e,held⟩
    simp [(find_exact Entry.key holds.rooted.sorted key e).mpr held]

theorem shared_live (holds : Holds h root ops leaves) : Shared node key leaves ↔
    ∃ other, other ≠ key ∧ lastValue ops other ≠ none ∧ childIndexFor node.entries other = childIndexFor node.entries key := by
  constructor
  · rintro ⟨e,member,other,same⟩
    exact ⟨e.key,other,(live_exact holds e.key).mpr ⟨e,member,rfl⟩,same⟩
  · rintro ⟨_,other,live,same⟩
    obtain ⟨e,member,rfl⟩ := (live_exact holds _).mp live
    exact ⟨e,member,other,same⟩

theorem frugal_tidy (tracks : Tracks p h) (holds : Holds h root ops leaves) :
    Frugal h root key leaves ↔ Tidy root ops p (.delete key) := by
  have absent : (∀ e ∈ contents leaves, e.key ≠ key) ↔ lastValue ops key = none := by
    rw [← not_iff_not,← ne_eq (lastValue ops key),live_exact holds]
    simp
  obtain ⟨⟨_,_,sub,_,owned⟩,_⟩ := holds.rooted
  obtain ⟨_,_,_,_,inside⟩ := subtree_root sub
  rw [Frugal,absent,Tidy]
  refine or_congr_right ⟨fun keeps node q read typ => ?_,fun keeps node found typ => ?_⟩
  · obtain ⟨two,shared⟩ := keeps node (read_tree tracks owned inside read) typ
    exact ⟨two,(shared_live holds).mp shared⟩
  · obtain ⟨q,read⟩ := read_found tracks owned inside found
    obtain ⟨two,shared⟩ := keeps node q read typ
    exact ⟨two,(shared_live holds).mpr shared⟩

theorem ledger_step (tracks : Tracks p h) (ledger : Ledger lost h root ops)
    (ran : perform pagerStore root op p = .ok () q) :
    ∃ t more, Tracks q t ∧ Ledger (lost + more) t root (ops ++ [op]) ∧ (more = 0 ↔ Tidy root ops p op) := by
  cases ledger with
  | hollow hollow =>
    obtain ⟨_,_,never⟩ := simulates_ok (perform_simulates root op) tracks ran (hollow_perform hollow op) stuck_tracked
    exact never.elim
  | @tree _ holds planted =>
    cases op with
    | put key value =>
      obtain ⟨t,after,_,_,plantedNew,entries,_⟩ := simulates_ok (put_simulates root key value) tracks ran
        (put_counted planted) ordinary_tracked
      exact ⟨t,0,after,.tree (put_holds holds plantedNew.rooted entries) plantedNew,fun _ => trivial,fun _ => rfl⟩
    | delete key =>
      obtain ⟨t,after,_,more,frugal,dropped⟩ := simulates_ok (delete_simulates root key) tracks ran
        (delete_counted planted) ordinary_tracked
      refine ⟨t,more,after,?_,frugal.trans (frugal_tidy tracks holds)⟩
      cases dropped with
      | rooted plantedNew erased same =>
        exact .tree (delete_holds holds plantedNew.rooted (same.trans erased.entries)) plantedNew
      | hollow hollow counted => exact .hollow hollow counted

theorem tidy_steps (steps : Steps root (Tidy root) p ops q) (tracks : Tracks p h) (ledger : Ledger 0 h root []) :
    ∃ t, Tracks q t ∧ Ledger 0 t root ops := by
  induction steps with
  | nil => exact ⟨h,tracks,ledger⟩
  | snoc _ tidy ran ih =>
    obtain ⟨_,tracked,now⟩ := ih
    obtain ⟨s,_,after,next,spent⟩ := ledger_step tracked now ran
    obtain rfl := spent.mpr tidy
    exact ⟨s,after,next⟩

-- Lost pages stay lost, so a run that ends with none lost never lost any.
theorem steps_ledger (steps : Steps root Always p ops q) (tracks : Tracks p h) (ledger : Ledger 0 h root []) :
    ∃ t lost, Tracks q t ∧ Ledger lost t root ops ∧ (lost = 0 → Steps root (Tidy root) p ops q) := by
  induction steps with
  | nil => exact ⟨h,0,tracks,ledger,fun _ => .nil⟩
  | snoc _ _ ran ih =>
    obtain ⟨_,lost,tracked,now,clean⟩ := ih
    obtain ⟨s,more,after,next,spent⟩ := ledger_step tracked now ran
    refine ⟨s,lost + more,after,next,fun none => ?_⟩
    obtain ⟨noneBefore,noneMore⟩ := Nat.add_eq_zero_iff.mp none
    exact .snoc (clean noneBefore) (spent.mp noneMore) ran

theorem openPager_fresh (empty : file.size = 0) (open_ : openPager file = .ok opened) :
    Sound opened [] ∧ opened.header = ⟨1,0,0,0⟩ := by
  have room : 1 ≤ file.limit := by
    by_contra full
    have refused : file.truncate 1 = none := dif_neg full
    simp [openPager,empty,refused] at open_
  obtain ⟨p,openedToo,sound,header,_⟩ := openPager_new empty room
  obtain rfl : opened = p := Except.ok.inj (open_.symm.trans openedToo)
  exact ⟨sound,header⟩

theorem fresh_created (empty : file.size = 0) (open_ : openPager file = .ok opened)
    (create : createBTree pagerStore opened = .ok root made) : ∃ h, Tracks made h ∧ Ledger 0 h root [] := by
  obtain ⟨sound,header⟩ := openPager_fresh empty open_
  have counted : Counted 0 (heapOf opened []) 0 := ⟨heapOf_owned sound,by simp [heapOf,header]⟩
  obtain ⟨t,tracks,_,holds,_,planted⟩ := simulates_ok createBTree_simulates (heapOf_tracks sound) create
    (create_meets counted) ordinary_tracked
  exact ⟨t,tracks,.tree holds planted⟩

-- Pages: after a history on a fresh file every page is free or in the tree once,
-- exactly when every Delete of the history was tidy.
theorem pages_accounted_exactly_after_tidy_runs (fresh : Fresh root Always ops p) :
    Accounted root p ↔ Fresh root (Tidy root) ops p := by
  constructor
  · intro accounted
    obtain ⟨file,opened,made,empty,open_,create,steps⟩ := fresh
    obtain ⟨_,tracks,ledger⟩ := fresh_created empty open_ create
    obtain ⟨_,_,tracked,now,clean⟩ := steps_ledger steps tracks ledger
    exact ⟨file,opened,made,empty,open_,create,clean ((ledger_exact tracked now).mp accounted)⟩
  · rintro ⟨_,_,_,empty,open_,create,steps⟩
    obtain ⟨_,tracks,ledger⟩ := fresh_created empty open_ create
    obtain ⟨_,tracked,now⟩ := tidy_steps steps tracks ledger
    exact (ledger_exact tracked now).mpr rfl

-- Runs over long keys recurse as deep as a key is long.
set_option maxRecDepth 20000

theorem three_wide_puts_account_for_pages : ∃ p, Fresh 1 Always threeWide p ∧ Fresh 1 (Tidy 1) threeWide p ∧
    (Accounted 1 p ↔ Fresh 1 (Tidy 1) threeWide p) := by
  have puts : ∀ done, ∀ s : Pager, ∀ op ∈ threeWide, Tidy 1 done s op := by
    intro done s op member
    simp only [threeWide,List.mem_cons,List.not_mem_nil,or_false] at member
    rcases member with rfl | rfl | rfl <;> trivial
  have done : answer (history heapStore threeWide blankHeap) = .ok 1 := by decide +kernel
  obtain ⟨_,p,opened,made,_,_,open_,create,steps⟩ := blank_steps done puts
  have always : Fresh 1 Always threeWide p :=
    ⟨blankFile,opened,made,rfl,open_,create,steps.always⟩
  exact ⟨p,always,⟨blankFile,opened,made,rfl,open_,create,steps⟩,pages_accounted_exactly_after_tidy_runs always⟩

def emptiedChild : List Operation := threeWide ++ [.delete (wide 1)]

-- The root takes over its last child: neither that child's page nor the page of
-- the child the key was taken from is freed.
theorem delete_leaks_child_pages : ∃ p, Fresh 1 Always emptiedChild p ∧ p.header.pageCount = 4 ∧
    (¬ Listed p 2 ∧ ¬ ∃ path, Leads p 1 path 2) ∧ ¬ Listed p 3 ∧ ¬ ∃ path, Leads p 1 path 3 := by
  have done : answer (history heapStore emptiedChild blankHeap) = .ok 1 ∧
      answer ((history heapStore emptiedChild >>= fun root => do
        let h ← get
        let node ← heapStore.readNode root
        return (h.pageCount,h.free,node.typ)) blankHeap) = .ok (4,[],.leaf) := by decide +kernel
  obtain ⟨_,p,opened,made,ran,tracks,open_,create,steps⟩ :=
    @blank_steps 1 emptiedChild Always done.1 (fun _ _ _ _ => trivial)
  have seen := done.2
  rw [bind_ran ran] at seen
  obtain ⟨_,rest⟩ := answer_ok seen
  obtain ⟨_,_,got,rest⟩ := bind_ok.mp rest
  cases got
  obtain ⟨_,_,read,returned⟩ := bind_ok.mp rest
  simp only [pure,EStateM.pure,EStateM.Result.ok.injEq,Prod.mk.injEq] at returned
  obtain ⟨⟨count,free,typ⟩,_⟩ := returned
  obtain ⟨_,_,low,_⟩ := follows_ok (readNode_simulates 1) tracks (congrArg answer read)
  have stays : ∀ {path : List Nat} {id : Nat}, Leads p 1 path id → id = 1 := by
    intro path id leads
    cases path with
    | nil => exact leads
    | cons =>
      obtain ⟨_,_,_,again,branch,_⟩ := leads
      cases low.symm.trans again
      rw [typ] at branch
      cases branch
  refine ⟨p,⟨blankFile,opened,made,rfl,open_,create,steps⟩,tracks.count.trans count,⟨?_,?_⟩,?_,?_⟩
  · simp [listed_exact tracks,free]
  · rintro ⟨_,leads⟩
    cases stays leads
  · simp [listed_exact tracks,free]
  · rintro ⟨_,leads⟩
    cases stays leads

end Kronos.BTreePages
