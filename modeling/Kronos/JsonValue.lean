import Kronos.SortedRun
import Kronos.Decimal

namespace Kronos.JsonValue
open ByteRange Utf8 JsonString JsonText SortedRun

-- The text of time.Time's zero value.
def zeroInstant : Bytes := ascii "0001-01-01T00:00:00Z"

-- The same trees with plain strings in place of tokens are the values that
-- texts stand for. Numbers go through float64 and times through RFC 3339; all
-- that is used of the two is the text a read value is written with.
structure Scalars where
  number : Bytes → Option Bytes
  instant : Bytes → Option Bytes
  number_numeral : ∀ text shown, number text = some shown → Numeral shown
  number_stable : ∀ text shown, number text = some shown → number shown = some shown
  instant_plain : ∀ text shown, instant text = some shown → quote shown = shown
  instant_stable : ∀ text shown, instant text = some shown → instant shown = some shown
  instant_zero : instant zeroInstant = some zeroInstant

abbrev Members := List (Bytes × Json)

mutual
def quoteAll : Json → Json
  | .null => .null
  | .bool value => .bool value
  | .num text => .num text
  | .str text => .str (quote text)
  | .arr items => .arr (quoteItems items)
  | .obj members => .obj (quoteMembers members)

def quoteItems : List Json → List Json
  | [] => []
  | item :: rest => quoteAll item :: quoteItems rest

def quoteMembers : Members → Members
  | [] => []
  | (key,value) :: rest => (quote key,quoteAll value) :: quoteMembers rest
end

theorem quoteMembers_append (left right : Members) :
    quoteMembers (left ++ right) = quoteMembers left ++ quoteMembers right := by
  induction left with
  | nil => rfl
  | cons _ _ ih => exact congrArg (_ :: ·) ih

-- Reading a document into a value of type any: objects become maps, which hold
-- their keys in order and the last member of each key.
mutual
def generic (scalars : Scalars) : Json → Option Json
  | .null => some .null
  | .bool value => some (.bool value)
  | .num text => (scalars.number text).map .num
  | .str token => (unquote token).map .str
  | .arr items => (genericItems scalars items).map .arr
  | .obj members => (genericMembers scalars members).map (fun read => .obj (putAll Prod.fst [] read))

def genericItems (scalars : Scalars) : List Json → Option (List Json)
  | [] => some []
  | item :: rest => do
    let item ← generic scalars item
    let rest ← genericItems scalars rest
    return item :: rest

def genericMembers (scalars : Scalars) : Members → Option Members
  | [] => some []
  | (key,value) :: rest => do
    let key ← unquote key
    let value ← generic scalars value
    let rest ← genericMembers scalars rest
    return (key,value) :: rest
end

mutual
def Plain (scalars : Scalars) : Json → Prop
  | .null => True
  | .bool _ => True
  | .num text => scalars.number text = some text
  | .str text => Valid text
  | .arr items => PlainItems scalars items
  | .obj members => Ascending Prod.fst members ∧ PlainMembers scalars members

def PlainItems (scalars : Scalars) : List Json → Prop
  | [] => True
  | item :: rest => Plain scalars item ∧ PlainItems scalars rest

def PlainMembers (scalars : Scalars) : Members → Prop
  | [] => True
  | (key,value) :: rest => Valid key ∧ Plain scalars value ∧ PlainMembers scalars rest
end

variable {scalars : Scalars}

mutual
theorem generic_plain : ∀ value, Plain scalars value → generic scalars (quoteAll value) = some value
  | .null,_ => rfl
  | .bool _,_ => rfl
  | .num _,kept => by rw [quoteAll,generic,kept]; rfl
  | .str text,valid => by rw [quoteAll,generic,unquote_quote,valid.repair]; rfl
  | .arr items,plain => by rw [quoteAll,generic,genericItems_plain items plain]; rfl
  | .obj members,⟨sorted,plain⟩ => by
    rw [quoteAll,generic,genericMembers_plain members plain,Option.map_some,putAll_above _ sorted]
    rfl

theorem genericItems_plain : ∀ items, PlainItems scalars items → genericItems scalars (quoteItems items) = some items
  | [],_ => rfl
  | item :: rest,⟨head,later⟩ => by
    rw [quoteItems,genericItems,generic_plain item head,genericItems_plain rest later]
    rfl

theorem genericMembers_plain : ∀ members, PlainMembers scalars members →
    genericMembers scalars (quoteMembers members) = some members
  | [],_ => rfl
  | (key,value) :: rest,⟨valid,head,later⟩ => by
    rw [quoteMembers,genericMembers,unquote_quote,valid.repair,generic_plain value head,
      genericMembers_plain rest later]
    rfl
end

theorem quoteMembers_keys (members : Members) :
    (quoteMembers members).map Prod.fst = (members.map Prod.fst).map quote := by
  induction members with
  | nil => rfl
  | cons _ _ ih => simp only [quoteMembers,List.map_cons,ih]

theorem genericMembers_keys {members read : Members}
    (taken : genericMembers scalars (quoteMembers members) = some read) :
    read.map Prod.fst = (members.map Prod.fst).map repair := by
  induction members generalizing read with
  | nil => obtain rfl := Option.some.inj taken; rfl
  | cons _ _ ih =>
    simp only [quoteMembers,genericMembers,unquote_quote,Option.bind_eq_bind,Option.bind_some,
      Option.bind_eq_some_iff,Option.pure_def,Option.some.injEq] at taken
    obtain ⟨_,_,_,tail,rfl⟩ := taken
    simp only [List.map_cons,ih tail]

theorem ascending_keys {A B : Type} {left : List (Bytes × A)} {right : List (Bytes × B)}
    (same : left.map Prod.fst = right.map Prod.fst) (sorted : Ascending Prod.fst left) : Ascending Prod.fst right := by
  have keys := List.pairwise_map.mpr sorted
  rw [same] at keys
  exact List.pairwise_map.mp keys

-- Strings are read back repaired, so texts that quote to the same tokens and
-- are valid already are the same.
theorem repair_quoted {left right : List Bytes} (valid : ∀ text ∈ left, Valid text)
    (same : left.map quote = right.map quote) : left = right.map repair := by
  have read := congrArg (List.map unquote) same
  simp only [List.map_map,Function.comp_def,unquote_quote] at read
  have kept : left.map (fun text => some (repair text)) = left.map some :=
    List.map_congr_left (fun text member => by rw [(valid text member).repair])
  rw [kept] at read
  have both : left.map some = (right.map repair).map some := by
    simpa [List.map_map,Function.comp_def] using read
  exact List.map_injective_iff.mpr (Option.some_injective _) both

theorem putAll_stable {members read : Members} (taken : genericMembers scalars (quoteMembers members) = some read)
    (same : quoteMembers (putAll Prod.fst [] read) = quoteMembers members) : putAll Prod.fst [] read = read := by
  have sorted := putAll_ascending Prod.fst (List.Pairwise.nil : Ascending Prod.fst []) read
  have valid : ∀ key ∈ (putAll Prod.fst [] read).map Prod.fst, Valid key := by
    intro key member
    obtain ⟨entry,placed,rfl⟩ := List.mem_map.mp member
    rcases mem_putAll Prod.fst placed with absurd_ | old
    · cases absurd_
    · have repaired : entry.1 ∈ (members.map Prod.fst).map repair :=
        genericMembers_keys taken ▸ List.mem_map_of_mem old
      obtain ⟨text,_,shown⟩ := List.mem_map.mp repaired
      exact shown ▸ repair_valid text
  have quoted : ((putAll Prod.fst [] read).map Prod.fst).map quote = (members.map Prod.fst).map quote := by
    rw [← quoteMembers_keys,← quoteMembers_keys,same]
  have keys : (putAll Prod.fst [] read).map Prod.fst = read.map Prod.fst := by
    rw [repair_quoted valid quoted,genericMembers_keys taken]
  exact @putAll_above _ _ _ Prod.fst [] read (ascending_keys keys sorted)

mutual
theorem plain_of_stable : ∀ value read, generic scalars (quoteAll value) = some read →
    quoteAll read = quoteAll value → Plain scalars value
  | .null,_,_,_ => trivial
  | .bool _,_,_,_ => trivial
  | .num text,read,taken,same => by
    rw [quoteAll,generic,Option.map_eq_some_iff] at taken
    obtain ⟨_,number,rfl⟩ := taken
    rw [Plain,number,Json.num.inj same]
  | .str text,read,taken,same => by
    rw [quoteAll,generic,unquote_quote] at taken
    obtain rfl := Option.some.inj taken
    exact (quote_repair_iff text).mp (Json.str.inj same)
  | .arr items,read,taken,same => by
    rw [quoteAll,generic,Option.map_eq_some_iff] at taken
    obtain ⟨inner,inside,rfl⟩ := taken
    exact plainItems_of_stable items inner inside (Json.arr.inj same)
  | .obj members,read,taken,same => by
    rw [quoteAll,generic,Option.map_eq_some_iff] at taken
    obtain ⟨inner,inside,rfl⟩ := taken
    have same := Json.obj.inj same
    have kept := putAll_stable inside same
    have sorted := putAll_ascending Prod.fst (List.Pairwise.nil : Ascending Prod.fst []) inner
    rw [kept] at same sorted
    have plain := plainMembers_of_stable members inner inside same
    have read := genericMembers_plain members plain
    rw [inside] at read
    exact ⟨Option.some.inj read ▸ sorted,plain⟩

theorem plainItems_of_stable : ∀ items read, genericItems scalars (quoteItems items) = some read →
    quoteItems read = quoteItems items → PlainItems scalars items
  | [],_,_,_ => trivial
  | item :: rest,read,taken,same => by
    simp only [quoteItems,genericItems,Option.bind_eq_bind,Option.bind_eq_some_iff,Option.pure_def,
      Option.some.injEq] at taken
    obtain ⟨head,first,later,tail,rfl⟩ := taken
    obtain ⟨heads,tails⟩ := List.cons.inj same
    exact ⟨plain_of_stable item head first heads,plainItems_of_stable rest later tail tails⟩

theorem plainMembers_of_stable : ∀ members read, genericMembers scalars (quoteMembers members) = some read →
      quoteMembers read = quoteMembers members → PlainMembers scalars members
  | [],_,_,_ => trivial
  | (key,value) :: rest,read,taken,same => by
    simp only [quoteMembers,genericMembers,unquote_quote,Option.bind_eq_bind,Option.bind_some,
      Option.bind_eq_some_iff,Option.pure_def,Option.some.injEq] at taken
    obtain ⟨head,first,later,tail,rfl⟩ := taken
    obtain ⟨heads,tails⟩ := List.cons.inj same
    obtain ⟨keys,values⟩ := Prod.mk.inj heads
    exact ⟨(quote_repair_iff key).mp keys,plain_of_stable value head first values,
      plainMembers_of_stable rest later tail tails⟩
end

theorem plainMembers_iff (members : Members) :
    PlainMembers scalars members ↔ ∀ entry ∈ members, Valid entry.1 ∧ Plain scalars entry.2 := by
  induction members with
  | nil => simp [PlainMembers]
  | cons _ _ ih => simp [PlainMembers,ih,and_assoc]

-- Whatever the document, the value read from it is plain.
mutual
theorem generic_reads_plain : ∀ document value, generic scalars document = some value → Plain scalars value
  | .null,_,taken | .bool _,_,taken => by obtain rfl := Option.some.inj taken; trivial
  | .num text,_,taken => by
    rw [generic,Option.map_eq_some_iff] at taken
    obtain ⟨shown,number,rfl⟩ := taken
    exact scalars.number_stable text shown number
  | .str token,_,taken => by
    rw [generic,Option.map_eq_some_iff] at taken
    obtain ⟨_,string,rfl⟩ := taken
    exact unquote_valid string
  | .arr items,_,taken => by
    rw [generic,Option.map_eq_some_iff] at taken
    obtain ⟨inner,inside,rfl⟩ := taken
    exact genericItems_reads_plain items inner inside
  | .obj members,_,taken => by
    rw [generic,Option.map_eq_some_iff] at taken
    obtain ⟨inner,inside,rfl⟩ := taken
    refine ⟨putAll_ascending Prod.fst List.Pairwise.nil inner,(plainMembers_iff _).mpr ?_⟩
    intro entry placed
    rcases mem_putAll Prod.fst placed with absurd_ | old
    · cases absurd_
    · exact (plainMembers_iff inner).mp (genericMembers_reads_plain members inner inside) entry old

theorem genericItems_reads_plain : ∀ items values, genericItems scalars items = some values → PlainItems scalars values
  | [],_,taken => by obtain rfl := Option.some.inj taken; trivial
  | item :: rest,_,taken => by
    simp only [genericItems,Option.bind_eq_bind,Option.bind_eq_some_iff,Option.pure_def,
      Option.some.injEq] at taken
    obtain ⟨head,first,later,tail,rfl⟩ := taken
    exact ⟨generic_reads_plain item head first,genericItems_reads_plain rest later tail⟩

theorem genericMembers_reads_plain : ∀ members values, genericMembers scalars members = some values →
    PlainMembers scalars values
  | [],_,taken => by obtain rfl := Option.some.inj taken; trivial
  | (key,value) :: rest,_,taken => by
    simp only [genericMembers,Option.bind_eq_bind,Option.bind_eq_some_iff,Option.pure_def,
      Option.some.injEq] at taken
    obtain ⟨_,string,head,first,later,tail,rfl⟩ := taken
    exact ⟨unquote_valid string,generic_reads_plain value head first,
      genericMembers_reads_plain rest later tail⟩
end

mutual
theorem plain_wellformed : ∀ value, Plain scalars value → Wellformed (quoteAll value)
  | .null,_ => trivial
  | .bool _,_ => trivial
  | .num text,kept => scalars.number_numeral text text kept
  | .str text,_ => quote_token text
  | .arr items,plain => plainItems_wellformed items plain
  | .obj members,plain => plainMembers_wellformed members plain.2

theorem plainItems_wellformed : ∀ items, PlainItems scalars items → WellformedItems (quoteItems items)
  | [],_ => trivial
  | item :: rest,plain => ⟨plain_wellformed item plain.1,plainItems_wellformed rest plain.2⟩

theorem plainMembers_wellformed : ∀ members, PlainMembers scalars members → WellformedMembers (quoteMembers members)
  | [],_ => trivial
  | (key,value) :: rest,plain => ⟨quote_token key,plain_wellformed value plain.2.1,
      plainMembers_wellformed rest plain.2.2⟩
end

-- Numbers and times that keep the text they have.
def literalScalars : Scalars where
  number text := if Numeral text then some text else none
  instant text := if quote text = text then some text else none
  number_numeral := by
    intro text shown read
    split at read
    · obtain rfl := Option.some.inj read; assumption
    · cases read
  number_stable := by
    intro text shown read
    split at read
    · rename_i numeral
      obtain rfl := Option.some.inj read
      exact if_pos numeral
    · cases read
  instant_plain := by
    intro text shown read
    split at read
    · obtain rfl := Option.some.inj read; assumption
    · cases read
  instant_stable := by
    intro text shown read
    split at read
    · rename_i plain
      obtain rfl := Option.some.inj read
      exact if_pos plain
    · cases read
  instant_zero := by decide +kernel

end Kronos.JsonValue
