import Mathlib.Data.Multiset.OrderedMonoid
import Mathlib.Data.Multiset.Range
import Mathlib.Data.Multiset.UnionInter
import Mathlib.Tactic.Abel
import Kronos.NodeHeap

namespace Kronos.NodeHeap
open Effect BTreeNode

variable {h t : Heap} {id lost : Nat} {node : Node} {pages rest : Multiset Nat}

-- Faults a caller can be handed by a sound tree. A panic, a runaway descent, a
-- childless branch and a store the heap cannot follow are not among them.
def Fault.ordinary : Fault → Bool
  | .indexOutOfRange | .stackOverflow | .noEntries _ | .untracked _ => false
  | _ => true

def Ordinary (fault : Fault) (_ : Heap) : Prop := Fault.ordinary fault = true

-- The pages held are distinct, in range and off the free list.
structure Owned (h : Heap) (pages : Multiset Nat) : Prop where
  distinct : (pages + ↑h.free).Nodup
  inside : ∀ id ∈ pages + ↑h.free, id ≠ 0 ∧ id < h.pageCount
  positive : 0 < h.pageCount
  room : h.pageCount ≤ h.limit
  small : h.limit < 2 ^ 64

-- Owned pages with the count kept: as many pages as are lost are neither held
-- nor free.
structure Counted (lost : Nat) (h : Heap) (pages : Multiset Nat) : Prop extends Owned h pages where
  whole : pages.card + h.free.length + lost + 1 = h.pageCount

def Keeps (h t : Heap) (pages : Multiset Nat) : Prop := ∀ id ∈ pages, t.nodes id = h.nodes id

theorem Owned.held (owned : Owned h pages) (member : id ∈ pages) : id ≠ 0 ∧ id < h.pageCount :=
  owned.inside id (Multiset.mem_add.mpr (.inl member))

theorem Owned.small_id (owned : Owned h pages) (member : id ∈ pages) : id < 2 ^ 64 :=
  Nat.lt_of_lt_of_le (owned.held member).2 (Nat.le_of_lt (Nat.lt_of_le_of_lt owned.room owned.small))

theorem Owned.used (owned : Owned h pages) (member : id ∈ pages) : id ∉ h.free := by
  intro free
  exact Multiset.disjoint_left.mp (Multiset.nodup_add.mp owned.distinct).2.2 member (Multiset.mem_coe.mpr free)

theorem Owned.nodup (owned : Owned h pages) : pages.Nodup := (Multiset.nodup_add.mp owned.distinct).1

theorem Owned.apart (owned : Owned h (id ::ₘ pages)) : id ∉ pages := (Multiset.nodup_cons.mp owned.nodup).1

-- Pages can be forgotten; nothing takes them back.
theorem Owned.forget (owned : Owned h pages) (fewer : rest ≤ pages) : Owned h rest := {owned with
  distinct := Multiset.nodup_of_le (add_le_add fewer le_rfl) owned.distinct
  inside := fun id member => owned.inside id (Multiset.mem_of_le (add_le_add fewer le_rfl) member)}

theorem Owned.count (owned : Owned h pages) : pages.card ≤ h.pageCount := by
  have below : pages ≤ Multiset.range h.pageCount :=
    (Multiset.le_iff_subset owned.nodup).mpr fun id member => Multiset.mem_range.mpr (owned.held member).2
  simpa using Multiset.card_le_card below

theorem Owned.below (owned : Owned h pages) : 0 ::ₘ (pages + (h.free : Multiset Nat)) ≤ Multiset.range h.pageCount := by
  have apart : 0 ∉ pages + ↑h.free := fun member => (owned.inside 0 member).1 rfl
  refine (Multiset.le_iff_subset (Multiset.nodup_cons.mpr ⟨apart,owned.distinct⟩)).mpr fun id member => ?_
  rcases Multiset.mem_cons.mp member with rfl | held
  · exact Multiset.mem_range.mpr owned.positive
  · exact Multiset.mem_range.mpr (owned.inside id held).2

theorem Owned.counted (owned : Owned h pages) : ∃ lost, Counted lost h pages := by
  have enough := Multiset.card_le_card owned.below
  simp only [Multiset.card_cons,Multiset.card_add,Multiset.coe_card,Multiset.card_range] at enough
  exact ⟨h.pageCount - (pages.card + h.free.length + 1),owned,by omega⟩

theorem Counted.full (counted : Counted lost h pages) :
    lost = 0 ↔ ∀ id, id ≠ 0 → id < h.pageCount → id ∈ pages ∨ id ∈ h.free := by
  have whole := counted.whole
  have size : (0 ::ₘ (pages + (h.free : Multiset Nat))).card = pages.card + h.free.length + 1 := by simp
  constructor
  · rintro rfl id nonzero inside
    have enough : (Multiset.range h.pageCount).card ≤ (0 ::ₘ (pages + (h.free : Multiset Nat))).card := by
      rw [Multiset.card_range,size]
      omega
    have member : id ∈ 0 ::ₘ (pages + (h.free : Multiset Nat)) := by
      rw [Multiset.eq_of_le_of_card_le counted.below enough]
      exact Multiset.mem_range.mpr inside
    simpa [nonzero] using member
  · intro all
    have within : Multiset.range h.pageCount ≤ 0 ::ₘ (pages + (h.free : Multiset Nat)) := by
      refine (Multiset.le_iff_subset (Multiset.nodup_range _)).mpr fun id member => ?_
      by_cases zero : id = 0
      · simp [zero]
      · simpa [zero] using all id zero (Multiset.mem_range.mp member)
    have enough := Multiset.card_le_card within
    rw [Multiset.card_range,size] at enough
    omega

theorem Counted.set (counted : Counted lost h pages) (view : Except Fault Node) : Counted lost (h.set id view) pages :=
  {counted with}

theorem Counted.lose (counted : Counted lost h (id ::ₘ pages)) : Counted (lost+1) h pages := by
  have whole := counted.whole
  rw [Multiset.card_cons] at whole
  exact ⟨counted.forget (Multiset.le_cons_self _ _),by omega⟩

theorem Keeps.refl (h : Heap) (pages : Multiset Nat) : Keeps h h pages := fun _ _ => rfl

theorem Keeps.trans (first : Keeps h m pages) (second : Keeps m t pages) : Keeps h t pages :=
  fun id member => (second id member).trans (first id member)

theorem Keeps.mono (kept : Keeps h t pages) (fewer : rest ⊆ pages) : Keeps h t rest :=
  fun id member => kept id (fewer member)

theorem keeps_set (h : Heap) (view : Except Fault Node) (apart : id ∉ pages) : Keeps h (h.set id view) pages :=
  fun _ member => set_other h view fun same => apart (same ▸ member)

theorem read_exact (owned : Owned h pages) (member : id ∈ pages) (found : h.nodes id = .ok node) :
    readNode id h = .ok node h := by
  obtain ⟨nonzero,inside⟩ := owned.held member
  simp only [readNode]
  rw [if_neg (Nat.not_le_of_lt inside),if_neg nonzero,found]

theorem write_exact (owned : Owned h pages) (member : node.id ∈ pages) (valid : WellFormed node) :
    writeNode node h = if nodeFits node then .ok () (h.set node.id (.ok node)) else .error (.nodeDoesNotFit node.id) h := by
  obtain ⟨nonzero,inside⟩ := owned.held member
  have tracked : ¬ (node.id = 0 ∨ node.id ∈ h.free ∨ ¬ WellFormed node) := by
    rintro (zero | free | broken)
    · exact nonzero zero
    · exact owned.used member free
    · exact broken valid
  unfold writeNode
  rw [if_neg (Nat.not_le_of_lt inside)]
  cases fits : nodeFits node with
  | false => rfl
  | true => rw [if_neg (by simp),if_neg tracked,if_pos rfl]

theorem write_meets (owned : Owned h pages) (member : node.id ∈ pages) (valid : WellFormed node) :
    Meets (writeNode node) h (fun _ t => t = h.set node.id (.ok node) ∧ nodeFits node = true) Ordinary := by
  unfold Meets
  rw [write_exact owned member valid]
  cases fits : nodeFits node with
  | false => exact rfl
  | true => exact ⟨rfl,rfl⟩

theorem alloc_counted (owned : Counted lost h pages) :
    Meets allocPage h (fun id t => Counted lost t (id ::ₘ pages) ∧ Keeps h t pages) Ordinary := by
  have whole := owned.whole
  unfold Meets allocPage
  cases shape : h.free with
  | cons id rest =>
    have moved : pages + ↑h.free = (id ::ₘ pages) + ↑rest := by
      rw [shape,← Multiset.cons_coe,Multiset.add_cons,Multiset.cons_add]
    have apart : id ∉ pages := by
      intro member
      exact owned.used member (by simp [shape])
    refine ⟨⟨⟨?_,?_,owned.positive,owned.room,owned.small⟩,?_⟩,fun other member => ?_⟩
    · exact moved ▸ owned.distinct
    · intro other member
      exact owned.inside other (moved ▸ member)
    · rw [shape,List.length_cons] at whole
      change (id ::ₘ pages).card + rest.length + lost + 1 = h.pageCount
      rw [Multiset.card_cons]
      omega
    · exact set_other _ _ fun same => apart (same ▸ member)
  | nil =>
    by_cases room : h.pageCount + 1 ≤ h.limit
    · simp only [if_pos room]
      have apart : h.pageCount ∉ pages := fun member => Nat.lt_irrefl _ (owned.held member).2
      refine ⟨⟨⟨?_,?_,Nat.succ_pos _,room,owned.small⟩,?_⟩,fun other member => ?_⟩
      · simpa [shape] using And.intro apart owned.nodup
      · intro other member
        have cases : other = h.pageCount ∨ other ∈ pages := by simpa [shape] using member
        rcases cases with rfl | old
        · exact ⟨Nat.pos_iff_ne_zero.mp owned.positive,Nat.lt_succ_self _⟩
        · obtain ⟨nonzero,inside⟩ := owned.held old
          exact ⟨nonzero,Nat.lt_succ_of_lt inside⟩
      · rw [shape] at whole
        change (h.pageCount ::ₘ pages).card + 0 + lost + 1 = h.pageCount + 1
        rw [Multiset.card_cons]
        rw [List.length_nil] at whole
        omega
      · exact set_other _ _ fun same => apart (same ▸ member)
    · simp only [if_neg room]
      exact rfl

theorem free_counted (owned : Counted lost h (id ::ₘ pages)) :
    ∃ t, freePage id h = .ok () t ∧ Counted lost t pages ∧ Keeps h t pages := by
  have whole := owned.whole
  have member : id ∈ id ::ₘ pages := Multiset.mem_cons_self id pages
  obtain ⟨nonzero,inside⟩ := owned.held member
  have moved : pages + ↑(id :: h.free) = (id ::ₘ pages) + ↑h.free := by
    rw [← Multiset.cons_coe,Multiset.add_cons,Multiset.cons_add]
  have ran : freePage id h = .ok () (({h with free := id :: h.free} : Heap).set id
      (decodeNode id (linkPage (h.free.headD 0)))) := by
    simp only [freePage]
    rw [if_neg nonzero,if_neg (Nat.not_le_of_lt inside),if_neg (owned.used member)]
  refine ⟨_,ran,⟨⟨?_,?_,owned.positive,owned.room,owned.small⟩,?_⟩,fun other held => ?_⟩
  · exact moved ▸ owned.distinct
  · intro other held
    exact owned.inside other (moved ▸ held)
  · rw [Multiset.card_cons] at whole
    change pages.card + (id :: h.free).length + lost + 1 = h.pageCount
    rw [List.length_cons]
    omega
  · exact set_other _ _ fun same => owned.apart (same ▸ held)

end Kronos.NodeHeap
