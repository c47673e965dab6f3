import Mathlib.Data.List.Nodup
import Mathlib.Data.List.Perm.Subperm

namespace Kronos.ParentChain

section
variable {N K : Type} (parent : N → Option K) (find : K → Option N)

-- A chain goes from a node to one that has no parent.
inductive Chain : N → List N → Prop
  | root {node : N} : parent node = none → Chain node [node]
  | step {node next : N} {up : K} {rest : List N} : parent node = some up → find up = some next →
      Chain next rest → Chain node (node :: rest)

variable {parent find}

theorem Chain.head (chained : Chain parent find node chain) : ∃ rest, chain = node :: rest := by
  cases chained with
  | root => exact ⟨[],rfl⟩
  | step => exact ⟨_,rfl⟩

theorem Chain.refound {node : N} {chain : List N} (chained : Chain parent find node chain)
    {other : K → Option N} {kept : N → Prop} (here : kept node)
    (closed : ∀ node up next, kept node → parent node = some up → find up = some next →
      kept next ∧ other up = some next) : Chain parent other node chain ∧ ∀ n ∈ chain, kept n := by
  induction chained with
  | root top => exact ⟨.root top,List.forall_mem_singleton.mpr here⟩
  | step up found _ ih =>
    obtain ⟨there,same⟩ := closed _ _ _ here up found
    obtain ⟨rest,all⟩ := ih there
    exact ⟨.step up same rest,List.forall_mem_cons.mpr ⟨here,all⟩⟩

end

section
variable {N K : Type} [DecidableEq K] (id : N → K) (parent : N → Option K) (find : K → Option N)

inductive Stop (K : Type)
  | cycle (at_ : K) | missing (child up : K) | unfinished
  deriving DecidableEq

-- Walking up the parents of a node, with the nodes met so far.
def walk : Nat → List K → N → Except (Stop K) (List N)
  | 0,_,_ => .error .unfinished
  | fuel+1,seen,current =>
    if id current ∈ seen then .error (.cycle (id current))
    else match parent current with
      | none => .ok [current]
      | some up => match find up with
        | none => .error (.missing (id current) up)
        | some next => (walk fuel (id current :: seen) next).map (current :: ·)

variable {id parent find}

theorem walk_sound (walked : walk id parent find fuel seen node = .ok chain) :
    Chain parent find node chain ∧ (chain.map id).Nodup ∧ ∀ k ∈ chain.map id, k ∉ seen := by
  induction fuel generalizing seen node chain with
  | zero => cases walked
  | succ fuel ih =>
    rw [walk] at walked
    split at walked
    · cases walked
    · rename_i fresh
      cases top : parent node with
      | none =>
        rw [top] at walked
        obtain rfl := Except.ok.inj walked
        exact ⟨.root top,List.nodup_singleton _,List.forall_mem_singleton.mpr fresh⟩
      | some up =>
        cases found : find up with
        | none => simp only [top,found] at walked; cases walked
        | some next =>
          simp only [top,found] at walked
          cases later : walk id parent find fuel (id node :: seen) next with
          | error => rw [later] at walked; cases walked
          | ok =>
            rw [later] at walked
            obtain rfl := Except.ok.inj walked
            obtain ⟨chained,distinct,apart⟩ := ih later
            refine ⟨.step top found chained,?_,?_⟩
            · rw [List.map_cons,List.nodup_cons]
              exact ⟨fun met => apart _ met List.mem_cons_self,distinct⟩
            · exact List.forall_mem_cons.mpr
                ⟨fresh,fun k member old => apart k member (List.mem_cons_of_mem _ old)⟩

theorem walk_complete {fuel : Nat} {seen : List K} {node : N} {chain : List N}
    (chained : Chain parent find node chain) (enough : chain.length ≤ fuel) (distinct : (chain.map id).Nodup)
    (apart : ∀ k ∈ chain.map id, k ∉ seen) : walk id parent find fuel seen node = .ok chain := by
  induction fuel generalizing seen node chain with
  | zero =>
    obtain ⟨rest,rfl⟩ := chained.head
    cases enough
  | succ _ ih =>
    cases chained with
    | root top =>
      rw [walk,if_neg (apart _ List.mem_cons_self),top]
    | step up found later =>
      rw [List.map_cons,List.nodup_cons] at distinct
      obtain ⟨fresh,apart⟩ := List.forall_mem_cons.mp apart
      have rest := @ih (id node :: seen) _ _ later (Nat.le_of_succ_le_succ enough) distinct.2 (by
        intro k member old
        rcases List.mem_cons.mp old with rfl | before
        · exact distinct.1 member
        · exact apart k member before)
      simp only [walk,fresh,if_false,up,found,rest]
      rfl

-- Nodes that can be found and are all different are at most as many as there
-- are names for them; a walk with more steps than that has an end.
theorem walk_finishes {names : List K} (known : ∀ k node, find k = some node → id node ∈ names) {fuel : Nat}
    {seen : List K} {node : N} (there : id node ∈ names) (distinct : seen.Nodup) (met : seen ⊆ names)
    (enough : names.length < seen.length + fuel) : walk id parent find fuel seen node ≠ .error .unfinished := by
  induction fuel generalizing seen node with
  | zero =>
    have few := (List.subperm_of_subset distinct met).length_le
    omega
  | succ fuel ih =>
    rw [walk]
    split
    · simp
    · rename_i fresh
      cases parent node with
      | none => simp
      | some up =>
        cases found : find up with
        | none => simp [found]
        | some next =>
          have later := @ih (id node :: seen) next (known up next found) (List.nodup_cons.mpr ⟨fresh,distinct⟩)
            (List.cons_subset.mpr ⟨there,met⟩) (by rw [List.length_cons]; omega)
          cases walked : walk id parent find fuel (id node :: seen) next with
          | ok => simp [found,walked,Except.map]
          | error =>
            simpa [found,walked,Except.map] using later

end
end Kronos.ParentChain
