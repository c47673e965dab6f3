import Kronos.ManifestCommit

namespace Kronos.ObjectListing
open ByteRange Utf8 SortedRun ObjectStore ManifestCommit

structure ListPage where
  objects : List ObjectInfo
  nextToken : Bytes
  deriving DecidableEq

-- Names the local backend uses for its own files.
def hidden (key : Bytes) : Bool := (ascii ".lock").isSuffixOf key || (ascii ".tmp").isSuffixOf key

def matching (store : Store) (folder token : Bytes) : List (Bytes × Bytes) :=
  store.objects.filter (fun object => !hidden object.1 && folder.isPrefixOf object.1 &&
    (decide (token = []) || decide (token < object.1)))

def list (env : Environment) (pageSize : Nat) (store : Store) (folder token : Bytes) : ListPage :=
  let found := (matching store folder token).map (fun object => info env object.1 object.2)
  if found.length ≤ pageSize then ⟨found,[]⟩
  else ⟨found.take pageSize,(found[pageSize - 1]?.map ObjectInfo.key).getD []⟩

-- How far a listing has come: about to ask for a page, or going through one.
inductive Walk
  | ask (token : Bytes) | visit (rest : List ObjectInfo) (next : Bytes)
  deriving DecidableEq

def Walk.Ahead : Walk → Bytes → Prop
  | .ask token,key => token = [] ∨ token < key
  | .visit rest next,key => key ∈ rest.map ObjectInfo.key ∨ (next ≠ [] ∧ next < key)

def Walk.Inside (folder : Bytes) : Walk → Prop
  | .ask _ => True
  | .visit rest _ => ∀ object ∈ rest, folder.isPrefixOf object.key = true

section
variable {env : Environment} {pageSize : Nat} {store : Store} {folder token key data : Bytes}

theorem mem_matching : object ∈ matching store folder token ↔
    object ∈ store.objects ∧ hidden object.1 = false ∧ folder.isPrefixOf object.1 = true ∧
      (token = [] ∨ token < object.1) := by
  simp [matching,and_assoc]

theorem get_mem : store.get key = some data ↔ (key,data) ∈ store.objects := by
  unfold Store.get
  constructor
  · intro found
    obtain ⟨object,present,rfl⟩ := Option.map_eq_some_iff.mp found
    obtain ⟨member,rfl⟩ := (find_exact Prod.fst store.sorted key object).mp present
    exact member
  · intro member
    rw [(find_exact Prod.fst store.sorted key (key,data)).mpr ⟨member,rfl⟩]
    rfl

theorem matching_sorted : Ascending Prod.fst (matching store folder token) := store.sorted.filter _

theorem list_objects : ∃ rest, (matching store folder token).map (fun object => info env object.1 object.2) =
    (list env pageSize store folder token).objects ++ rest := by
  unfold list
  dsimp only
  split
  · exact ⟨[],(List.append_nil _).symm⟩
  · exact ⟨_,(List.take_append_drop _ _).symm⟩

theorem list_member (member : object ∈ (list env pageSize store folder token).objects) :
    (∃ data, store.get object.key = some data) ∧ folder.isPrefixOf object.key = true := by
  obtain ⟨_,whole⟩ := @list_objects env pageSize store folder token
  have inFound : object ∈ (matching store folder token).map (fun object => info env object.1 object.2) :=
    whole ▸ List.mem_append_left _ member
  obtain ⟨named,inMatching,rfl⟩ := List.mem_map.mp inFound
  obtain ⟨inStore,_,inside,_⟩ := mem_matching.mp inMatching
  exact ⟨⟨named.2,get_mem.mpr inStore⟩,inside⟩

-- A page that is not the last ends with the key of its token: what lies before
-- the token is on the page, what lies after it is not.
theorem list_cut (sized : 0 < pageSize) : ((list env pageSize store folder token).nextToken = [] ∧
        (list env pageSize store folder token).objects =
          (matching store folder token).map (fun object => info env object.1 object.2)) ∨
      ∃ before last after, matching store folder token = before ++ last :: after ∧
        (list env pageSize store folder token).objects =
          (before ++ [last]).map (fun object => info env object.1 object.2) ∧
        (list env pageSize store folder token).nextToken = last.1 := by
  unfold list
  dsimp only
  split
  · exact Or.inl ⟨rfl,rfl⟩
  · rename_i more
    rw [List.length_map] at more
    right
    have bound : pageSize - 1 < (matching store folder token).length := by omega
    refine ⟨(matching store folder token).take (pageSize - 1),(matching store folder token)[pageSize - 1],
      (matching store folder token).drop pageSize,?_,?_,?_⟩
    · have split := List.take_append_drop (pageSize - 1) (matching store folder token)
      rw [List.drop_eq_getElem_cons bound,Nat.sub_add_cancel sized] at split
      exact split.symm
    · rw [List.take_append_getElem bound,Nat.sub_add_cancel sized,List.map_take]
    · rw [List.getElem?_map,List.getElem?_eq_getElem bound]
      rfl

theorem list_ahead (rooted : folder ≠ []) (sized : 0 < pageSize) (there : store.get key = some data)
    (shown : hidden key = false) (inside : folder.isPrefixOf key = true) (ahead : (Walk.ask token).Ahead key) :
    (Walk.visit (list env pageSize store folder token).objects
      (list env pageSize store folder token).nextToken).Ahead key := by
  have wanted : (key,data) ∈ matching store folder token := mem_matching.mpr ⟨get_mem.mp there,shown,inside,ahead⟩
  have onPage : ∀ objects : List (Bytes × Bytes), (key,data) ∈ objects →
      key ∈ (objects.map (fun object => info env object.1 object.2)).map ObjectInfo.key := by
    intro objects member
    rw [List.map_map]
    exact List.mem_map.mpr ⟨_,member,rfl⟩
  rcases @list_cut env pageSize store folder token sized with ⟨_,objects⟩ | ⟨before,last,after,whole,objects,next⟩
  · left
    rw [objects]
    exact onPage _ wanted
  · have sorted : Ascending Prod.fst ((before ++ [last]) ++ after) := by
      rw [← List.append_cons,← whole]
      exact matching_sorted
    have lastInside : folder.isPrefixOf last.1 = true :=
      (mem_matching.mp (whole ▸ List.mem_append_right _ List.mem_cons_self : last ∈ matching store folder token)).2.2.1
    rw [whole,List.append_cons] at wanted
    rcases List.mem_append.mp wanted with listed | later
    · left
      rw [objects]
      exact onPage _ listed
    · right
      rw [next]
      refine ⟨?_,(List.pairwise_append.mp sorted).2.2 last (List.mem_append_right _ List.mem_cons_self) _ later⟩
      intro empty
      rw [empty] at lastInside
      exact rooted (List.prefix_nil.mp (List.isPrefixOf_iff_prefix.mp lastInside))

theorem matching_later {last : Bytes} (reached : last ≠ []) (further : token = [] ∨ token < last) :
    matching store folder last = (matching store folder token).filter (fun object => decide (last < object.1)) := by
  unfold matching
  rw [List.filter_filter]
  apply List.filter_congr
  intro object _
  by_cases later : last < object.1
  · have ahead : token = [] ∨ token < object.1 := further.imp id (fun before => before.trans later)
    have known : (decide (token = []) || decide (token < object.1)) = true := by simpa using ahead
    rw [known]
    simp [later]
  · simp [later,reached]

theorem list_left (sized : 0 < pageSize) : (list env pageSize store folder token).objects.length +
      (if (list env pageSize store folder token).nextToken = [] then 0
        else (matching store folder (list env pageSize store folder token).nextToken).length) ≤
    (matching store folder token).length ∧
      ((list env pageSize store folder token).nextToken ≠ [] → 0 < (list env pageSize store folder token).objects.length) := by
  rcases @list_cut env pageSize store folder token sized with ⟨next,objects⟩ | ⟨before,last,after,whole,objects,next⟩
  · rw [next,objects,if_pos rfl,List.length_map]
    exact ⟨Nat.le_refl _,fun some => absurd rfl some⟩
  · rw [next,objects,List.length_map]
    refine ⟨?_,fun _ => by simp⟩
    have length := congrArg List.length whole
    have sorted : Ascending Prod.fst ((before ++ [last]) ++ after) := by
      rw [← List.append_cons,← whole]
      exact matching_sorted
    by_cases empty : last.1 = []
    · rw [if_pos empty,length]
      simp
    · rw [if_neg empty]
      have shorter : (matching store folder last.1).Sublist after := by
        have member : last ∈ matching store folder token := by
          rw [whole]
          exact List.mem_append_right _ List.mem_cons_self
        have upTo : ∀ object ∈ before ++ [last], ¬ last.1 < object.1 := by
          intro object onPage
          rcases List.mem_append.mp onPage with earlier | same
          · rw [List.append_assoc] at sorted
            exact not_lt_of_gt ((List.pairwise_append.mp sorted).2.2 object earlier last (by simp))
          · rw [List.mem_singleton.mp same]
            exact lt_irrefl _
        rw [matching_later empty (mem_matching.mp member).2.2.2,whole,List.append_cons,List.filter_append,
          List.filter_eq_nil_iff.mpr (fun object onPage => by simpa using upTo object onPage),List.nil_append]
        exact List.filter_sublist
      have bound := shorter.length_le
      rw [length]
      simp only [List.length_append,List.length_cons,List.length_nil]
      omega

theorem ahead_next (ahead : (Walk.visit (object :: rest) next).Ahead key) :
    key = object.key ∨ (Walk.visit rest next).Ahead key := by
  rcases ahead with member | later
  · rcases List.mem_cons.mp member with same | other
    · exact Or.inl same
    · exact Or.inr (Or.inl other)
  · exact Or.inr (Or.inr later)

theorem ahead_page (ahead : (Walk.visit [] next).Ahead key) : next ≠ [] ∧ (Walk.ask next).Ahead key := by
  rcases ahead with member | later
  · cases member
  · exact ⟨later.1,Or.inr later.2⟩

theorem inside_next (inside : (Walk.visit (object :: rest) next).Inside folder) :
    folder.isPrefixOf object.key = true ∧ (Walk.visit rest next).Inside folder :=
  ⟨inside object List.mem_cons_self,fun other member => inside other (List.mem_cons_of_mem _ member)⟩

theorem matching_delete (gone : Bytes) :
    (matching (store.delete gone) folder token).length ≤ (matching store folder token).length :=
  (List.filter_sublist.filter _).length_le

end
end Kronos.ObjectListing
