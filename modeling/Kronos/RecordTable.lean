import Kronos.SortedRun

namespace Kronos.RecordTable
open SortedRun

-- A table of records by key: at most one record of each key, in key order.
@[ext]
structure Table {K E : Type} [LinearOrder K] (key : E → K) where
  rows : List E
  sorted : Ascending key rows

variable {K E : Type} [LinearOrder K] {key : E → K}

namespace Table

def empty : Table key := ⟨[],List.Pairwise.nil⟩

def single (e : E) : Table key := ⟨[e],List.pairwise_singleton _ _⟩

def get (table : Table key) (k : K) : Option E := find key table.rows k

def put (table : Table key) (e : E) : Table key := ⟨SortedRun.put key table.rows e,put_ascending key table.sorted e⟩

def delete (table : Table key) (k : K) : Table key := ⟨drop key table.rows k,drop_ascending key table.sorted k⟩

def putAll (table : Table key) (new : List E) : Table key := new.foldl put table

variable (table : Table key)

theorem get_exact : table.get k = some e ↔ e ∈ table.rows ∧ key e = k :=
  find_exact key table.sorted k e

theorem get_put (e : E) (k : K) : (table.put e).get k = if k = key e then some e else table.get k :=
  find_put key table.sorted e k

theorem get_delete (gone k : K) : (table.delete gone).get k = if k = gone then none else table.get k :=
  find_drop key table.sorted gone k

theorem mem_put : other ∈ (table.put e).rows ↔ other = e ∨ (other ∈ table.rows ∧ key other ≠ key e) :=
  SortedRun.mem_put key

theorem rows_nodup : (table.rows.map key).Nodup := by
  rw [List.Nodup,List.pairwise_map]
  exact table.sorted.imp (fun below => ne_of_lt below)

theorem mem_putAll (member : e ∈ (table.putAll new).rows) : e ∈ table.rows ∨ e ∈ new := by
  induction new generalizing table with
  | nil => exact .inl member
  | cons first _ ih =>
    rcases ih (table.put first) member with placed | later
    · rcases table.mem_put.mp placed with rfl | ⟨old,_⟩
      · exact .inr List.mem_cons_self
      · exact .inl old
    · exact .inr (List.mem_cons_of_mem _ later)

theorem get_putAll_other (other : ∀ e ∈ new, key e ≠ k) : (table.putAll new).get k = table.get k := by
  induction new generalizing table with
  | nil => rfl
  | cons first rest ih =>
    obtain ⟨here,later⟩ := List.forall_mem_cons.mp other
    change ((table.put first).putAll rest).get k = table.get k
    rw [ih (table.put first) later,get_put,if_neg (fun same => here same.symm)]

theorem get_putAll (distinct : (new.map key).Nodup) (member : e ∈ new) : (table.putAll new).get (key e) = some e := by
  induction new generalizing table with
  | nil => cases member
  | cons first rest ih =>
    obtain ⟨absent,distinct⟩ := List.nodup_cons.mp distinct
    change ((table.put first).putAll rest).get (key e) = some e
    rcases List.mem_cons.mp member with rfl | later
    · rw [get_putAll_other,get_put,if_pos rfl]
      intro other inRest same
      exact absent (List.mem_map.mpr ⟨other,inRest,same⟩)
    · exact ih (table.put first) distinct later

theorem mem_iff_get : e ∈ table.rows ↔ table.get (key e) = some e := by
  rw [get_exact,and_iff_left rfl]

theorem eq_of_get {b : Table key} (same : ∀ k, a.get k = b.get k) : a = b := by
  have members : ∀ e, e ∈ a.rows ↔ e ∈ b.rows := by
    intro e
    rw [mem_iff_get,mem_iff_get,same]
  have distinct : ∀ table : Table key, table.rows.Nodup := by
    intro table
    refine table.sorted.imp ?_
    intro e other below same
    rw [same] at below
    exact lt_irrefl _ below
  have perm : a.rows.Perm b.rows := (List.perm_ext_iff_of_nodup (distinct a) (distinct b)).mpr members
  apply Table.ext
  refine List.Perm.eq_of_pairwise ?_ a.sorted b.sorted perm
  intro e other _ _ below above
  exact absurd below (lt_asymm above)

def rewrite (f : E → E) (keeps : ∀ e, key (f e) = key e) : Table key where
  rows := table.rows.map f
  sorted := List.pairwise_map.mpr (table.sorted.imp (fun {a b} below => by
    rw [keeps,keeps]
    exact below))

theorem get_rewrite {f : E → E} {keeps : ∀ e, key (f e) = key e} (k : K) :
    (table.rewrite f keeps).get k = (table.get k).map f := by
  apply Option.ext
  intro new
  rw [get_exact,Option.map_eq_some_iff]
  constructor
  · rintro ⟨member,named⟩
    obtain ⟨e,old,rfl⟩ := List.mem_map.mp member
    exact ⟨e,table.get_exact.mpr ⟨old,(keeps e).symm.trans named⟩,rfl⟩
  · rintro ⟨e,found,rfl⟩
    obtain ⟨member,named⟩ := table.get_exact.mp found
    exact ⟨List.mem_map.mpr ⟨e,member,rfl⟩,(keeps e).trans named⟩

end Table

end Kronos.RecordTable
