import Mathlib.Data.List.Sort

namespace Kronos.MergedStreams

-- Several streams, each numbered from zero, put one after the other and then
-- sorted by number alone. Each item carries the place of its stream.
variable {α β : Type} (number : α → Int) (content : α → List β)

def tagged (streams : List (List α)) : List (Nat × α) :=
  (streams.mapIdx (fun place stream => stream.map (fun item => (place,item)))).flatten

def Numbered (stream : List α) : Prop :=
  stream.map number = (List.range stream.length).map (fun i : Nat => (i : Int))

def Ascending (ordered : List (Nat × α)) : Prop := ordered.Pairwise (fun a b => number a.2 ≤ number b.2)

-- Between two items of one stream there is no item of another.
def Separate (ordered : List (Nat × α)) : Prop :=
  ∀ x y z, [x,y,z].Sublist ordered → x.1 = z.1 → y.1 = x.1

def contents (ordered : List (Nat × α)) : List β := (ordered.map (fun item => content item.2)).flatten

-- Whatever a sort makes of them, the streams come out whole and in their order.
def KeepsStreams (streams : List (List α)) : Prop :=
  ∀ ordered, ordered.Perm (tagged streams) → Ascending number ordered →
    contents content ordered = (streams.flatten.map content).flatten ∧ Separate ordered

def OneFilled (streams : List (List α)) : Prop :=
  ∀ (i j : Nat) (one other : List α), streams[i]? = some one → streams[j]? = some other → one ≠ [] → other ≠ [] → i = j

def Commuting (streams : List (List α)) : Prop :=
  (∀ stream ∈ streams, stream.length ≤ 1) ∧
    ∀ a ∈ streams.flatten, ∀ b ∈ streams.flatten, content a ++ content b = content b ++ content a

variable {number content} {streams : List (List α)}

theorem mem_tagged (item : Nat × α) :
    item ∈ tagged streams ↔ ∃ stream, streams[item.1]? = some stream ∧ item.2 ∈ stream := by
  rw [tagged,List.mem_flatten]
  constructor
  · rintro ⟨_,member,inside⟩
    obtain ⟨place,bound,rfl⟩ := List.mem_mapIdx.mp member
    obtain ⟨_,inStream,rfl⟩ := List.mem_map.mp inside
    exact ⟨streams[place],List.getElem?_eq_getElem bound,inStream⟩
  · rintro ⟨_,found,inside⟩
    obtain ⟨bound,rfl⟩ := List.getElem?_eq_some_iff.mp found
    exact ⟨_,List.mem_mapIdx.mpr ⟨item.1,bound,rfl⟩,List.mem_map.mpr ⟨item.2,inside,rfl⟩⟩

theorem tagged_items (streams : List (List α)) : (tagged streams).map Prod.snd = streams.flatten := by
  rw [tagged,List.map_flatten]
  congr 1
  apply List.ext_getElem?
  intro i
  rw [List.getElem?_map,List.getElem?_mapIdx]
  cases streams[i]? with
  | none => rfl
  | some => simp

theorem tagged_contents (streams : List (List α)) :
    contents content (tagged streams) = (streams.flatten.map content).flatten := by
  rw [contents,← tagged_items streams,List.map_map]
  rfl

theorem numbered_at (numbered : Numbered number stream) (i : Nat) (item : α) (found : stream[i]? = some item) :
    number item = i := by
  have mapped := congrArg (fun list : List Int => list[i]?) numbered
  obtain ⟨bound,_⟩ := List.getElem?_eq_some_iff.mp found
  simp only [List.getElem?_map,found,Option.map_some,List.getElem?_range bound,Option.some.injEq] at mapped
  exact mapped

theorem numbered_strict (numbered : Numbered number stream) : stream.Pairwise (fun a b => number a < number b) := by
  have pairs : (stream.map number).Pairwise (· < ·) := by
    rw [numbered,List.pairwise_map]
    exact List.pairwise_lt_range.imp (fun less => by exact_mod_cast less)
  exact List.pairwise_map.mp pairs

theorem one_filled (filled : OneFilled streams) : streams.flatten = [] ∨ streams.flatten ∈ streams := by
  induction streams with
  | nil => exact Or.inl rfl
  | cons head rest ih =>
    have later : OneFilled rest := by
      intro i j one other first second left right
      have same := filled (i + 1) (j + 1) one other first second left right
      omega
    by_cases empty : head = []
    · rw [List.flatten_cons,empty,List.nil_append]
      exact (ih later).imp id (fun member => List.mem_cons_of_mem _ member)
    · have others : rest.flatten = [] := by
        rw [List.flatten_eq_nil_iff]
        intro stream member
        by_contra some
        obtain ⟨i,found⟩ := List.getElem?_of_mem member
        have same := filled 0 (i + 1) head stream rfl found empty some
        omega
      rw [List.flatten_cons,others,List.append_nil]
      exact Or.inr List.mem_cons_self

-- A stream numbered from zero is the only sorted order of its items.
theorem numbered_unique (numbered : Numbered number stream) (same : ordered.Perm stream)
    (ascending : ordered.Pairwise (fun a b => number a ≤ number b)) : ordered = stream := by
  have strict := numbered_strict numbered
  have distinct : (stream.map number).Nodup := List.pairwise_map.mpr (strict.imp (fun less => Int.ne_of_lt less))
  refine List.Perm.eq_of_pairwise ?_ ascending (strict.imp (fun less => Int.le_of_lt less)) same
  intro a b inOrdered inStream one other
  exact List.inj_on_of_nodup_map distinct (same.mem_iff.mp inOrdered) inStream (Int.le_antisymm one other)

theorem one_filled_keeps (numbered : ∀ stream ∈ streams, Numbered number stream) (filled : OneFilled streams) :
    KeepsStreams number content streams := by
  have whole : Numbered number streams.flatten := by
    rcases one_filled filled with empty | member
    · rw [empty]
      rfl
    · exact numbered _ member
  intro ordered same ascending
  have items : (ordered.map Prod.snd).Perm streams.flatten := tagged_items streams ▸ same.map Prod.snd
  have unique := numbered_unique whole items (List.pairwise_map.mpr ascending)
  constructor
  · rw [contents,← unique,List.map_map]
    rfl
  · intro x y z inside _
    have place (item : Nat × α) (member : item ∈ [x,y,z]) :=
      (mem_tagged item).mp (same.subset (inside.subset member))
    obtain ⟨_,foundX,inX⟩ := place x (by simp)
    obtain ⟨_,foundY,inY⟩ := place y (by simp)
    exact filled _ _ _ _ foundY foundX (List.ne_nil_of_mem inY) (List.ne_nil_of_mem inX)

theorem flatten_perm {one : List (List β)} (same : one.Perm other) (commute : ∀ a ∈ one, ∀ b ∈ one, a ++ b = b ++ a) :
    one.flatten = other.flatten := by
  induction same with
  | nil => rfl
  | cons _ _ ih =>
    rw [List.flatten_cons,List.flatten_cons,
      ih (fun a inA b inB => commute a (List.mem_cons_of_mem _ inA) b (List.mem_cons_of_mem _ inB))]
  | swap a b =>
    simp only [List.flatten_cons,← List.append_assoc]
    rw [commute b (by simp) a (by simp)]
  | trans first _ ih later =>
    rw [ih commute,later (fun a inA b inB => commute a (first.mem_iff.mpr inA) b (first.mem_iff.mpr inB))]

theorem single_places (single : ∀ stream ∈ streams, stream.length ≤ 1) : ((tagged streams).map Prod.fst).Nodup := by
  rw [tagged,List.map_flatten,List.nodup_flatten]
  constructor
  · intro places member
    obtain ⟨_,inside,rfl⟩ := List.mem_map.mp member
    obtain ⟨_,bound,rfl⟩ := List.mem_mapIdx.mp inside
    have short := single _ (List.getElem_mem bound)
    exact List.nodup_iff_sublist.mpr (fun x twice => by
      have long := twice.length_le
      simp at long
      omega)
  · rw [List.pairwise_map,List.pairwise_iff_getElem]
    intro i j boundI boundJ less
    simp only [List.getElem_mapIdx,List.map_map]
    intro x inI inJ
    obtain ⟨_,_,rfl⟩ := List.mem_map.mp inI
    obtain ⟨_,_,equal⟩ := List.mem_map.mp inJ
    simp only [Function.comp_apply] at equal
    omega

theorem commuting_keeps (commuting : Commuting content streams) : KeepsStreams number content streams := by
  obtain ⟨single,commute⟩ := commuting
  intro ordered same _
  constructor
  · rw [← tagged_contents]
    apply flatten_perm (same.map _)
    intro a inA b inB
    obtain ⟨x,memberX,rfl⟩ := List.mem_map.mp inA
    obtain ⟨y,memberY,rfl⟩ := List.mem_map.mp inB
    have item {z : Nat × α} (member : z ∈ ordered) : z.2 ∈ streams.flatten :=
      tagged_items streams ▸ List.mem_map.mpr ⟨z,same.subset member,rfl⟩
    exact commute _ (item memberX) _ (item memberY)
  · intro x y z inside equal
    have places : (ordered.map Prod.fst).Nodup := (same.map _).nodup_iff.mpr (single_places single)
    have three := places.sublist (inside.map Prod.fst)
    simp only [List.map_cons,List.map_nil,List.nodup_cons,List.mem_cons] at three
    exact absurd (Or.inr (Or.inl equal)) three.1

theorem picked_first {γ : Type} {picked items : List γ} (distinct : picked.Nodup) (inside : picked ⊆ items) :
    ∃ others, items.Perm (picked ++ others) := by
  obtain ⟨_,same,sub⟩ := List.subperm_of_subset distinct inside
  obtain ⟨others,perm⟩ := sub.exists_perm_append
  exact ⟨others,perm.trans (same.append_right _)⟩

def stableSort (number : α → Int) (items : List (Nat × α)) : List (Nat × α) :=
  items.mergeSort (fun a b => decide (number a.2 ≤ number b.2))

theorem sort_ascending (number : α → Int) (items : List (Nat × α)) : Ascending number (stableSort number items) := by
  have sorted := @List.pairwise_mergeSort _ (fun a b : Nat × α => decide (number a.2 ≤ number b.2))
    (fun a b c first second => by simp only [decide_eq_true_eq] at *; omega)
    (fun a b => by simp only [Bool.or_eq_true,decide_eq_true_eq]; omega) items
  exact sorted.imp (fun up => of_decide_eq_true up)

theorem sort_keeps (number : α → Int) (ascending : Ascending number kept) (inside : kept.Sublist items) :
    kept.Sublist (stableSort number items) :=
  List.sublist_mergeSort (fun a b c first second => by simp only [decide_eq_true_eq] at *; omega)
    (fun a b => by simp only [Bool.or_eq_true,decide_eq_true_eq]; omega)
    (ascending.imp (fun up => decide_eq_true up)) inside

-- The first two items of a stream and the first of another: a stable sort that
-- is given them in this order leaves the other stream's item between them.
theorem longer_splits (numbered : ∀ stream ∈ streams, Numbered number stream) {i j : Nat}
    (found : streams[i]? = some one) (beside : streams[j]? = some other) (long : 2 ≤ one.length) (some : other ≠ [])
    (apart : i ≠ j) : ¬ KeepsStreams number content streams := by
  intro keeps
  match one,other with
  | a :: b :: rest,c :: more =>
    have inOne := numbered _ (List.mem_of_getElem? found)
    have first := numbered_at inOne 0 a rfl
    have second := numbered_at inOne 1 b rfl
    have third := numbered_at (numbered _ (List.mem_of_getElem? beside)) 0 c rfl
    have picked : ([(i,a),(j,c),(i,b)] : List (Nat × α)).Nodup := by
      have differ : a ≠ b := by
        rintro rfl
        omega
      simp [apart,Ne.symm apart,differ]
    have inside : ([(i,a),(j,c),(i,b)] : List (Nat × α)) ⊆ tagged streams := by
      intro item member
      rw [mem_tagged]
      simp only [List.mem_cons,List.not_mem_nil,or_false] at member
      rcases member with rfl | rfl | rfl
      · exact ⟨_,found,by simp⟩
      · exact ⟨_,beside,by simp⟩
      · exact ⟨_,found,by simp⟩
    obtain ⟨others,given⟩ := picked_first picked inside
    obtain ⟨_,separate⟩ := keeps _ ((List.mergeSort_perm _ _).trans given.symm) (sort_ascending number _)
    have ascending : Ascending number [(i,a),(j,c),(i,b)] := by simp [Ascending,first,second,third]
    have kept := sort_keeps number ascending (List.sublist_append_left _ others)
    exact apart (separate _ _ _ kept rfl).symm
  | [],_ | [_],_ => simp at long
  | _ :: _ :: _,[] => exact some rfl

theorem keeps_commute (numbered : ∀ stream ∈ streams, Numbered number stream)
    (single : ∀ stream ∈ streams, stream.length ≤ 1) (keeps : KeepsStreams number content streams) :
    ∀ a ∈ streams.flatten, ∀ b ∈ streams.flatten, content a ++ content b = content b ++ content a := by
  have zero : ∀ item ∈ tagged streams, number item.2 = 0 := by
    intro item member
    obtain ⟨_,found,inside⟩ := (mem_tagged item).mp member
    obtain ⟨i,position⟩ := List.getElem?_of_mem inside
    have place := numbered_at (numbered _ (List.mem_of_getElem? found)) i item.2 position
    obtain ⟨_,_⟩ := List.getElem?_eq_some_iff.mp position
    have short := single _ (List.mem_of_getElem? found)
    omega
  -- Every order of the items is sorted, so all of them have the same contents.
  have fixed : ∀ ordered, ordered.Perm (tagged streams) →
      contents content ordered = (streams.flatten.map content).flatten := by
    intro ordered same
    refine (keeps ordered same (List.pairwise_of_forall_mem_list ?_)).1
    intro x inX y inY
    rw [zero x (same.subset inX),zero y (same.subset inY)]
  intro a inA b inB
  rw [← tagged_items] at inA inB
  obtain ⟨x,memberX,rfl⟩ := List.mem_map.mp inA
  obtain ⟨y,memberY,rfl⟩ := List.mem_map.mp inB
  by_cases equal : x = y
  · rw [equal]
  obtain ⟨others,given⟩ := picked_first (by simpa using equal : [x,y].Nodup)
    (by simp [memberX,memberY] : [x,y] ⊆ tagged streams)
  have swapped := (fixed _ given.symm).trans
    (fixed ([y,x] ++ others) ((List.Perm.swap x y others).trans given.symm)).symm
  simp only [contents,List.map_append,List.map_cons,List.map_nil,List.flatten_append,List.flatten_cons,
    List.flatten_nil,List.append_nil] at swapped
  exact List.append_cancel_right swapped

theorem keeps_iff (numbered : ∀ stream ∈ streams, Numbered number stream) :
    KeepsStreams number content streams ↔ OneFilled streams ∨ Commuting content streams := by
  constructor
  · intro keeps
    by_cases filled : OneFilled streams
    · exact Or.inl filled
    obtain ⟨i,j,one,other,found,beside,someOne,someOther,apart⟩ : ∃ (i j : Nat) (one other : List α),
        streams[i]? = some one ∧ streams[j]? = some other ∧ one ≠ [] ∧ other ≠ [] ∧ i ≠ j := by
      simpa only [OneFilled,not_forall,exists_prop] using filled
    have single : ∀ stream ∈ streams, stream.length ≤ 1 := by
      intro stream member
      by_contra long
      obtain ⟨k,position⟩ := List.getElem?_of_mem member
      by_cases same : k = i
      · exact longer_splits numbered position beside (by omega) someOther (by omega) keeps
      · exact longer_splits numbered position found (by omega) someOne same keeps
    exact Or.inr ⟨single,keeps_commute numbered single keeps⟩
  · rintro (filled | commuting)
    · exact one_filled_keeps numbered filled
    · exact commuting_keeps commuting

end Kronos.MergedStreams
