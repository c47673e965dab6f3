import Kronos.JsonValue

namespace Kronos.GoJson
open ByteRange Utf8 JsonString JsonText JsonValue Decimal SortedRun

-- What json.Marshal is given: a struct as its fields in the order they are
-- written, a map as its entries by key, a float64 as its shortest text.
inductive GoValue
  | absent | bool (value : Bool) | int (value : Int) | float (text : Bytes) | str (text : Bytes)
  | slice (items : List GoValue) | map (entries : List (Bytes × GoValue)) | record (fields : List (Bytes × GoValue))
  | unsupported

mutual
def shape : GoValue → Option Json
  | .absent => some .null
  | .bool value => some (.bool value)
  | .int value => some (.num (decimalInt value))
  | .float text => some (.num text)
  | .str text => some (.str text)
  | .slice items => (shapeItems items).map .arr
  | .map entries => (shapeMembers entries).map .obj
  | .record fields => (shapeMembers fields).map .obj
  | .unsupported => none

def shapeItems : List GoValue → Option (List Json)
  | [] => some []
  | item :: rest => do
    let item ← shape item
    let rest ← shapeItems rest
    return item :: rest

def shapeMembers : List (Bytes × GoValue) → Option Members
  | [] => some []
  | (key,value) :: rest => do
    let value ← shape value
    let rest ← shapeMembers rest
    return (key,value) :: rest
end

-- Go values: a map has each key once, a float is one its text stands for.
mutual
def Proper (scalars : Scalars) : GoValue → Prop
  | .float text => scalars.number text = some text
  | .slice items => ProperItems scalars items
  | .map entries => Ascending Prod.fst entries ∧ ProperMembers scalars entries
  | .record fields => ProperMembers scalars fields
  | _ => True

def ProperItems (scalars : Scalars) : List GoValue → Prop
  | [] => True
  | item :: rest => Proper scalars item ∧ ProperItems scalars rest

def ProperMembers (scalars : Scalars) : List (Bytes × GoValue) → Prop
  | [] => True
  | (_,value) :: rest => Proper scalars value ∧ ProperMembers scalars rest
end

-- The values that come back from JSON with the JSON they had.
mutual
def Faithful (scalars : Scalars) : GoValue → Prop
  | .int value => scalars.number (decimalInt value) = some (decimalInt value)
  | .str text => Valid text
  | .slice items => FaithfulItems scalars items
  | .map entries => FaithfulMembers scalars entries
  | .record fields => Ascending Prod.fst fields ∧ FaithfulMembers scalars fields
  | _ => True

def FaithfulItems (scalars : Scalars) : List GoValue → Prop
  | [] => True
  | item :: rest => Faithful scalars item ∧ FaithfulItems scalars rest

def FaithfulMembers (scalars : Scalars) : List (Bytes × GoValue) → Prop
  | [] => True
  | (key,value) :: rest => Valid key ∧ Faithful scalars value ∧ FaithfulMembers scalars rest
end

variable {scalars : Scalars}

theorem shapeMembers_keys (marshaled : shapeMembers entries = some shown) :
    shown.map Prod.fst = entries.map Prod.fst := by
  induction entries generalizing shown with
  | nil => obtain rfl := Option.some.inj marshaled; rfl
  | cons _ _ ih =>
    simp only [shapeMembers,Option.bind_eq_bind,Option.bind_eq_some_iff,Option.pure_def,
      Option.some.injEq] at marshaled
    obtain ⟨_,_,_,tail,rfl⟩ := marshaled
    simp only [List.map_cons,ih tail]

theorem shape_ascending (marshaled : shapeMembers entries = some shown) :
    Ascending Prod.fst shown ↔ Ascending Prod.fst entries := by
  have keys := shapeMembers_keys marshaled
  exact ⟨ascending_keys keys,ascending_keys keys.symm⟩

mutual
theorem plain_shape : ∀ value shown, Proper scalars value → shape value = some shown →
    (Plain scalars shown ↔ Faithful scalars value)
  | .absent,_,_,marshaled | .bool _,_,_,marshaled | .int _,_,_,marshaled | .str _,_,_,marshaled =>
    by obtain rfl := Option.some.inj marshaled; exact Iff.rfl
  | .float _,_,proper,marshaled => by
    obtain rfl := Option.some.inj marshaled
    exact iff_of_true proper trivial
  | .slice items,_,proper,marshaled => by
    obtain ⟨inner,inside,rfl⟩ := Option.map_eq_some_iff.mp marshaled
    exact plainItems_shape items inner proper inside
  | .map entries,_,proper,marshaled => by
    obtain ⟨inner,inside,rfl⟩ := Option.map_eq_some_iff.mp marshaled
    have sorted := (shape_ascending inside).mpr proper.1
    exact (and_iff_right sorted).trans (plainMembers_shape entries inner proper.2 inside)
  | .record fields,_,proper,marshaled => by
    obtain ⟨inner,inside,rfl⟩ := Option.map_eq_some_iff.mp marshaled
    exact and_congr (shape_ascending inside) (plainMembers_shape fields inner proper inside)
  | .unsupported,_,_,marshaled => by cases marshaled

theorem plainItems_shape : ∀ items shown, ProperItems scalars items → shapeItems items = some shown →
    (PlainItems scalars shown ↔ FaithfulItems scalars items)
  | [],_,_,marshaled => by obtain rfl := Option.some.inj marshaled; exact Iff.rfl
  | item :: rest,_,proper,marshaled => by
    simp only [shapeItems,Option.bind_eq_bind,Option.bind_eq_some_iff,Option.pure_def,
      Option.some.injEq] at marshaled
    obtain ⟨head,first,later,tail,rfl⟩ := marshaled
    exact and_congr (plain_shape item head proper.1 first) (plainItems_shape rest later proper.2 tail)

theorem plainMembers_shape : ∀ entries shown, ProperMembers scalars entries →
    shapeMembers entries = some shown → (PlainMembers scalars shown ↔ FaithfulMembers scalars entries)
  | [],_,_,marshaled => by obtain rfl := Option.some.inj marshaled; exact Iff.rfl
  | (key,value) :: rest,_,proper,marshaled => by
    simp only [shapeMembers,Option.bind_eq_bind,Option.bind_eq_some_iff,Option.pure_def,
      Option.some.injEq] at marshaled
    obtain ⟨head,first,later,tail,rfl⟩ := marshaled
    exact and_congr Iff.rfl (and_congr (plain_shape value head proper.1 first)
      (plainMembers_shape rest later proper.2 tail))
end

-- Whatever is marshaled has a text that can be read.
mutual
theorem shape_wellformed : ∀ value shown, Proper scalars value → shape value = some shown → Wellformed (quoteAll shown)
  | .absent,_,_,marshaled | .bool _,_,_,marshaled => by obtain rfl := Option.some.inj marshaled; trivial
  | .int value,_,_,marshaled => by
    obtain rfl := Option.some.inj marshaled
    exact decimalInt_numeral value
  | .float text,_,proper,marshaled => by
    obtain rfl := Option.some.inj marshaled
    exact scalars.number_numeral text text proper
  | .str text,_,_,marshaled => by
    obtain rfl := Option.some.inj marshaled
    exact quote_token text
  | .slice items,_,proper,marshaled => by
    obtain ⟨inner,inside,rfl⟩ := Option.map_eq_some_iff.mp marshaled
    exact shapeItems_wellformed items inner proper inside
  | .map entries,_,proper,marshaled => by
    obtain ⟨inner,inside,rfl⟩ := Option.map_eq_some_iff.mp marshaled
    exact shapeMembers_wellformed entries inner proper.2 inside
  | .record fields,_,proper,marshaled => by
    obtain ⟨inner,inside,rfl⟩ := Option.map_eq_some_iff.mp marshaled
    exact shapeMembers_wellformed fields inner proper inside
  | .unsupported,_,_,marshaled => by cases marshaled

theorem shapeItems_wellformed : ∀ items shown, ProperItems scalars items →
    shapeItems items = some shown → WellformedItems (quoteItems shown)
  | [],_,_,marshaled => by obtain rfl := Option.some.inj marshaled; trivial
  | item :: rest,_,proper,marshaled => by
    simp only [shapeItems,Option.bind_eq_bind,Option.bind_eq_some_iff,Option.pure_def,
      Option.some.injEq] at marshaled
    obtain ⟨head,first,later,tail,rfl⟩ := marshaled
    exact ⟨shape_wellformed item head proper.1 first,shapeItems_wellformed rest later proper.2 tail⟩

theorem shapeMembers_wellformed : ∀ entries shown, ProperMembers scalars entries →
    shapeMembers entries = some shown → WellformedMembers (quoteMembers shown)
  | [],_,_,marshaled => by obtain rfl := Option.some.inj marshaled; trivial
  | (key,value) :: rest,_,proper,marshaled => by
    simp only [shapeMembers,Option.bind_eq_bind,Option.bind_eq_some_iff,Option.pure_def,
      Option.some.injEq] at marshaled
    obtain ⟨head,first,later,tail,rfl⟩ := marshaled
    exact ⟨quote_token key,shape_wellformed value head proper.1 first,
      shapeMembers_wellformed rest later proper.2 tail⟩
end

end Kronos.GoJson
