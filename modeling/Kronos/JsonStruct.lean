import Mathlib.Data.List.Nodup
import Kronos.JsonValue

namespace Kronos.JsonStruct
open ByteRange Utf8 JsonString JsonText JsonValue

-- Field names are matched without regard to case; two runes outside ASCII fold
-- onto letters.
def foldPiece : Piece → Bytes
  | .rune [b] => if 97 ≤ b ∧ b ≤ 122 then [b - 32] else [b]
  | .rune bytes =>
    if bytes = [0xC5,0xBF] then [83] else if bytes = [0xE2,0x84,0xAA] then [75] else bytes
  | .bad b => [b]

def foldName (name : Bytes) : Bytes := (pieces name).flatMap foldPiece

-- How a struct is written and read: its fields in their order, the value of
-- each unless it is left out, and what reading a member does to the struct.
structure Layout.{u} (S : Type) (F : Type u) where
  fields : List F
  name : F → Bytes
  value : S → F → Option Json
  assign : S → F → Json → Option S

-- A string tagged omitempty is left out when it is empty.
def omitEmpty (text : Bytes) : Option Json := if text = [] then none else some (.str text)

namespace Layout
variable {S : Type} {F : Type*} (layout : Layout S F)

def entry (s : S) (field : F) : Option (Bytes × Json) :=
  (layout.value s field).map (fun value => (layout.name field,value))

def members (s : S) : Members := layout.fields.filterMap (layout.entry s)

def fieldOf (key : Bytes) : Option F :=
  layout.fields.find? (fun field => decide (foldName (layout.name field) = foldName key))

def readMember (s : S) (member : Bytes × Json) : Option S := do
  let key ← unquote member.1
  match layout.fieldOf key with
  | some field => layout.assign s field member.2
  | none => some s

def readMembers : S → Members → Option S
  | s,[] => some s
  | s,member :: rest => do
    let s ← layout.readMember s member
    readMembers s rest

def readField (s : S) (acc : S) (field : F) : Option S :=
  match layout.value s field with
  | some value => layout.assign acc field (quoteAll value)
  | none => some acc

def readFields (s : S) : S → List F → Option S
  | acc,[] => some acc
  | acc,field :: rest => do
    let acc ← layout.readField s acc field
    readFields s acc rest

structure Named : Prop where
  distinct : (layout.fields.map (fun field => foldName (layout.name field))).Nodup
  valid : ∀ field ∈ layout.fields, Valid (layout.name field)

variable {layout}

theorem Named.fieldOf_name (named : layout.Named) (member : field ∈ layout.fields) :
    layout.fieldOf (layout.name field) = some field := by
  have distinct := named.distinct
  unfold fieldOf
  revert distinct member
  generalize layout.fields = fields
  intro member distinct
  induction fields with
  | nil => cases member
  | cons head _ ih =>
    rw [List.map_cons,List.nodup_cons] at distinct
    rcases List.mem_cons.mp member with rfl | later
    · rw [List.find?_cons_of_pos (by simp)]
    · have other : foldName (layout.name head) ≠ foldName (layout.name field) := by
        intro same
        exact distinct.1 (same ▸ List.mem_map_of_mem later)
      rw [List.find?_cons_of_neg (by simpa using other),ih later distinct.2]

theorem readMembers_written (named : layout.Named) (s : S) (fields : List F)
    (known : ∀ field ∈ fields, field ∈ layout.fields) (acc : S) :
    layout.readMembers acc (quoteMembers (fields.filterMap (layout.entry s))) =
      layout.readFields s acc fields := by
  induction fields generalizing acc with
  | nil => rfl
  | cons field _ ih =>
    obtain ⟨member,later⟩ := List.forall_mem_cons.mp known
    rw [List.filterMap_cons,readFields,readField,entry]
    cases layout.value s field with
    | none => simpa using ih later acc
    | some value =>
      have key : unquote (quote (layout.name field)) = some (layout.name field) := by
        rw [unquote_quote,(named.valid field member).repair]
      simp only [Option.map_some,quoteMembers,readMembers,readMember,key,named.fieldOf_name member,
        Option.bind_eq_bind,Option.bind_some]
      cases layout.assign acc field (quoteAll value) with
      | none => rfl
      | some next => exact ih later next

theorem readMembers_members (named : layout.Named) (s acc : S) :
    layout.readMembers acc (quoteMembers (layout.members s)) = layout.readFields s acc layout.fields :=
  readMembers_written named s layout.fields (fun _ member => member) acc

theorem members_wellformed (s : S) (formed : ∀ field ∈ layout.fields, ∀ value,
    layout.value s field = some value → Wellformed (quoteAll value)) :
    Wellformed (quoteAll (.obj (layout.members s))) := by
  change WellformedMembers (quoteMembers (layout.fields.filterMap (layout.entry s)))
  revert formed
  induction layout.fields with
  | nil => intro _; trivial
  | cons field _ ih =>
    intro formed
    obtain ⟨first,later⟩ := List.forall_mem_cons.mp formed
    rw [List.filterMap_cons,entry]
    cases shown : layout.value s field with
    | none => exact ih later
    | some value => exact ⟨quote_token _,first value shown,ih later⟩

theorem readFields_cons (step : layout.readField s acc field = some next) :
    layout.readFields s acc (field :: rest) = layout.readFields s next rest := by
  rw [readFields,step]
  rfl

theorem readField_str (set : Bytes → S) (shown : layout.value s field = some (.str text))
    (reads : ∀ token, layout.assign acc field (.str token) = (unquote token).map set) :
    layout.readField s acc field = some (set (repair text)) := by
  rw [readField,shown]
  change layout.assign acc field (.str (quote text)) = _
  rw [reads,unquote_quote]
  rfl

theorem readField_optional (set : Bytes → S) (shown : layout.value s field = omitEmpty text)
    (reads : ∀ token, layout.assign acc field (.str token) = (unquote token).map set) (kept : set [] = acc) :
    layout.readField s acc field = some (set (repair text)) := by
  by_cases empty : text = []
  · rw [readField,shown,omitEmpty,if_pos empty,empty]
    exact congrArg some kept.symm
  · exact readField_str set (shown.trans (if_neg empty)) reads

theorem entries_agree {fields : List F} {key : F → Bytes} {left right : F → Option Json}
    (distinct : (fields.map key).Nodup)
    (same : fields.filterMap (fun field => (left field).map (fun value => (key field,value))) =
      fields.filterMap (fun field => (right field).map (fun value => (key field,value)))) :
    ∀ field ∈ fields, left field = right field := by
  induction fields with
  | nil => intro field member; cases member
  | cons head rest ih =>
    rw [List.map_cons,List.nodup_cons] at distinct
    have absent : ∀ (side : F → Option Json) (value : Json), (key head,value) ∉
        rest.filterMap (fun field => (side field).map (fun value => (key field,value))) := by
      intro side value listed
      obtain ⟨_,member,shown⟩ := List.mem_filterMap.mp listed
      obtain ⟨_,_,pair⟩ := Option.map_eq_some_iff.mp shown
      exact distinct.1 ((Prod.mk.inj pair).1 ▸ List.mem_map_of_mem member)
    simp only [List.filterMap_cons] at same
    cases leftValue : left head with
    | none =>
      cases rightValue : right head with
      | none =>
        simp only [leftValue,rightValue,Option.map_none] at same
        exact List.forall_mem_cons.mpr ⟨leftValue.trans rightValue.symm,ih distinct.2 same⟩
      | some value =>
        simp only [leftValue,rightValue,Option.map_none,Option.map_some] at same
        exact absurd (same ▸ List.mem_cons_self) (absent left value)
    | some value =>
      cases rightValue : right head with
      | none =>
        simp only [leftValue,rightValue,Option.map_none,Option.map_some] at same
        exact absurd (same ▸ List.mem_cons_self) (absent right value)
      | some =>
        simp only [leftValue,rightValue,Option.map_some,List.cons.injEq,Prod.mk.injEq,true_and] at same
        rw [← same.1] at rightValue
        exact List.forall_mem_cons.mpr ⟨leftValue.trans rightValue.symm,ih distinct.2 same.2⟩

theorem quoteMembers_members (s : S) : quoteMembers (layout.members s) = layout.fields.filterMap
    (fun field => ((layout.value s field).map quoteAll).map (fun value => (quote (layout.name field),value))) := by
  rw [members]
  induction layout.fields with
  | nil => rfl
  | cons field _ ih =>
    rw [List.filterMap_cons,List.filterMap_cons,entry]
    cases layout.value s field with
    | none => exact ih
    | some => exact congrArg (_ :: ·) ih

theorem Named.quoted_distinct (named : layout.Named) :
    (layout.fields.map (fun field => quote (layout.name field))).Nodup := by
  have readable : ∀ field ∈ layout.fields,
      unquote (quote (layout.name field)) = some (layout.name field) := by
    intro field member
    rw [unquote_quote,(named.valid field member).repair]
  have names : (layout.fields.map layout.name).Nodup := by
    refine List.Nodup.of_map foldName ?_
    rw [List.map_map]
    exact named.distinct
  refine List.Nodup.of_map unquote ?_
  rw [List.map_map]
  have shown : layout.fields.map (unquote ∘ fun field => quote (layout.name field)) =
      (layout.fields.map layout.name).map some := by
    rw [List.map_map]
    exact List.map_congr_left readable
  rw [shown]
  exact names.map (Option.some_injective _)

theorem fields_agree (named : layout.Named) {left : S}
    (same : quoteMembers (layout.members left) = quoteMembers (layout.members right)) :
    ∀ field ∈ layout.fields, (layout.value left field).map quoteAll = (layout.value right field).map quoteAll := by
  rw [quoteMembers_members,quoteMembers_members] at same
  exact entries_agree named.quoted_distinct same

theorem str_agree (same : (some (Json.str (repair text))).map quoteAll =
    (some (Json.str text)).map quoteAll) : Valid text :=
  (quote_repair_iff text).mp (Json.str.inj (Option.some.inj same))

theorem omitEmpty_agree (same : (omitEmpty (repair text)).map quoteAll = (omitEmpty text).map quoteAll) :
    Valid text := by
  by_cases empty : text = []
  · rw [empty]
    decide
  · rw [omitEmpty,omitEmpty,if_neg empty,if_neg (repair_eq_nil.not.mpr empty)] at same
    exact str_agree same

end Layout
end Kronos.JsonStruct
