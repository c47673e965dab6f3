import Kronos.Hex
import Kronos.JsonStruct
import Kronos.Rfc3339

namespace Kronos.JsonCodec
open ByteRange Utf8 JsonString JsonText JsonValue JsonStruct Decimal SortedRun Rfc3339

-- How values of a type are written and read. Reading starts from the value
-- already there; a written value that fits is read back as another, which is
-- the value itself unless something in it cannot be told apart on paper.
structure Codec (A : Type) where
  zero : A
  value : A → Json
  assign : A → Json → Option A
  back : A → A
  Fits : A → Prop
  formed : ∀ a, Fits a → Wellformed (quoteAll (value a))
  reads : ∀ a, Fits a → assign zero (quoteAll (value a)) = some (back a)

def text : Codec Bytes where
  zero := []
  value := .str
  assign
    | old,.null => some old
    | _,.str token => unquote token
    | _,_ => none
  back := repair
  Fits _ := True
  formed t _ := quote_token t
  reads t _ := unquote_quote t

-- strconv.ParseInt on a number: an optional minus and digits, within range.
def readInt (number : Bytes) : Option Int64 :=
  let negative := decide (number.head? = some 45)
  let digits := if negative then number.tail else number
  if digits = [] ∨ digits.all digitByte = false then none
  else
    let n : Int := if negative then -(Decimal.value digits) else Decimal.value digits
    if -2^63 ≤ n ∧ n < 2^63 then some (Int64.ofInt n) else none

theorem decimal_digits (n : Nat) : decimal n ≠ [] ∧ (decimal n).all digitByte = true ∧ (decimal n).head? ≠ some 45 := by
  obtain ⟨lead,_,shape,digits,_⟩ := decimalFrom_digits (n+1) n (Nat.lt_succ_self n)
  rw [decimal,shape]
  refine ⟨List.cons_ne_nil _ _,List.all_eq_true.mpr digits,?_⟩
  intro minus
  have same := Option.some.inj minus
  exact absurd (same ▸ digits lead List.mem_cons_self) (by decide)

theorem readInt_decimal (n : Int64) : readInt (decimalInt n.toInt) = some n := by
  have low := Int64.le_toInt n
  have high := Int64.toInt_lt n
  obtain ⟨shown,digits,plain⟩ := decimal_digits n.toInt.natAbs
  unfold decimalInt
  split
  · simp only [readInt,List.head?_cons,List.tail_cons,decide_true,if_true,shown,digits,value_decimal,
      Bool.true_eq_false,or_self,if_false]
    rw [show -(n.toInt.natAbs : Int) = n.toInt by omega,if_pos ⟨low,high⟩,Int64.ofInt_toInt]
  · simp only [readInt,plain,decide_false,shown,digits,value_decimal,Bool.true_eq_false,or_self,if_false,
      Bool.false_eq_true]
    rw [show (n.toInt.natAbs : Int) = n.toInt by omega,if_pos ⟨low,high⟩,Int64.ofInt_toInt]

def int : Codec Int64 where
  zero := 0
  value n := .num (decimalInt n.toInt)
  assign
    | old,.null => some old
    | _,.num number => readInt number
    | _,_ => none
  back n := n
  Fits _ := True
  formed n _ := decimalInt_numeral n.toInt
  reads n _ := readInt_decimal n

-- A float64 is held as the text it is written with.
def float (scalars : Scalars) : Codec Bytes where
  zero := ascii "0"
  value := .num
  assign
    | old,.null => some old
    | _,.num number => scalars.number number
    | _,_ => none
  back number := number
  Fits number := scalars.number number = some number
  formed number fits := scalars.number_numeral number number fits
  reads _ fits := fits

theorem timeByte_plain (plain : timeByte b = true) : b < 0x80 ∧ escapeByte b = [b] := by
  have bytes : ∀ n : Fin 256, timeByte (UInt8.ofNat n.val) = true →
      UInt8.ofNat n.val < 0x80 ∧ escapeByte (UInt8.ofNat n.val) = [UInt8.ofNat n.val] := by decide +kernel
  have fact := bytes ⟨b.toNat,b.toNat_lt⟩
  rw [UInt8.ofNat_toNat] at fact
  exact fact plain

theorem quote_time (written : format t = some shown) : quote shown = shown := by
  apply quote_plain
  intro b member
  exact timeByte_plain (format_bytes written b member)

-- time.Time takes the token as it stands; what is no RFC 3339 text by the book
-- goes through the general parser of layouts.
def time (lenient : Bytes → Option Time) : Codec Time where
  zero := Time.zero
  value t := .str ((format t).getD [])
  assign
    | old,.null => some old
    | _,.str token => (read token).orElse (fun _ => lenient token)
    | _,_ => none
  back := wholeMinutes
  Fits := Shown
  formed t _ := quote_token _
  reads t shown := by
    have written : format t = some ((format t).getD []) := by
      rw [format,if_pos shown]
      rfl
    change (read (quote ((format t).getD []))).orElse _ = _
    rw [quote_time written,read_format written]
    rfl

-- A slice: null stands for nil, and items are read onto the items there are.
def readSlice {A : Type} (codec : Codec A) : List A → List Json → Option (List A)
  | _,[] => some []
  | old,item :: rest => do
    let a ← codec.assign (old.headD codec.zero) item
    let later ← readSlice codec old.tail rest
    return a :: later

section
variable {A : Type} (codec : Codec A)

theorem readSlice_written (list : List A) (fits : ∀ a ∈ list, codec.Fits a) :
    readSlice codec [] (quoteItems (list.map codec.value)) = some (list.map codec.back) := by
  induction list with
  | nil => rfl
  | cons a _ ih =>
    obtain ⟨first,later⟩ := List.forall_mem_cons.mp fits
    have reads := codec.reads a first
    have tail := ih later
    simp only [List.map_cons,quoteItems,readSlice,List.headD_nil,List.tail_nil,reads,tail,Option.bind_eq_bind,
      Option.bind_some]
    rfl

theorem formed_items (list : List A) (fits : ∀ a ∈ list, codec.Fits a) :
    WellformedItems (quoteItems (list.map codec.value)) := by
  induction list with
  | nil => trivial
  | cons a _ ih =>
    obtain ⟨first,later⟩ := List.forall_mem_cons.mp fits
    exact ⟨codec.formed a first,ih later⟩

def slice : Codec (Option (List A)) where
  zero := none
  value
    | none => .null
    | some list => .arr (list.map codec.value)
  assign
    | _,.null => some none
    | old,.arr items => (readSlice codec (old.getD []) items).map some
    | _,_ => none
  back := Option.map (List.map codec.back)
  Fits list := ∀ a ∈ list.getD [],codec.Fits a
  formed
    | none,_ => trivial
    | some list,fits => formed_items codec list fits
  reads
    | none,_ => rfl
    | some list,fits => congrArg (Option.map some) (readSlice_written codec list fits)

-- A pointer to a value that is never written as null.
def pointer (shown : ∀ a, codec.value a ≠ .null) : Codec (Option A) where
  zero := none
  value
    | none => .null
    | some a => codec.value a
  assign
    | _,.null => some none
    | old,document => (codec.assign (old.getD codec.zero) document).map some
  back := Option.map codec.back
  Fits a := ∀ there ∈ a,codec.Fits there
  formed
    | none,_ => trivial
    | some a,fits => codec.formed a (fits a rfl)
  reads := by
    intro a fits
    cases a with
    | none => rfl
    | some a =>
      have reads := codec.reads a (fits a rfl)
      have some_text := shown a
      dsimp only
      cases shape : codec.value a with
      | null => exact absurd shape some_text
      | bool _ | num _ | str _ | arr _ | obj _ =>
        rw [shape] at reads
        exact congrArg (Option.map some) reads

end

-- A map of strings, held by its keys in order.
def readPairs : Members → Option (List (Bytes × Bytes))
  | [] => some []
  | (key,shown) :: rest => do
    let key ← unquote key
    let value ← text.assign [] shown
    let later ← readPairs rest
    return (key,value) :: later

def repairPair (pair : Bytes × Bytes) : Bytes × Bytes := (repair pair.1,repair pair.2)

def pairMember (pair : Bytes × Bytes) : Bytes × Json := (pair.1,.str pair.2)

theorem readPairs_written (pairs : List (Bytes × Bytes)) :
    readPairs (quoteMembers (pairs.map pairMember)) = some (pairs.map repairPair) := by
  induction pairs with
  | nil => rfl
  | cons _ _ ih =>
    simp only [List.map_cons,pairMember,quoteMembers,readPairs,unquote_quote,quoteAll,text,
      Option.bind_eq_bind,Option.bind_some] at ih ⊢
    rw [ih]
    rfl

theorem formed_pairs (pairs : List (Bytes × Bytes)) : WellformedMembers (quoteMembers (pairs.map pairMember)) := by
  induction pairs with
  | nil => trivial
  | cons _ _ ih => exact ⟨quote_token _,quote_token _,ih⟩

def strings : Codec (List (Bytes × Bytes)) where
  zero := []
  value pairs := .obj (pairs.map pairMember)
  assign
    | _,.null => some []
    | old,.obj members => (readPairs members).map (putAll Prod.fst old)
    | _,_ => none
  back pairs := putAll Prod.fst [] (pairs.map repairPair)
  Fits _ := True
  formed pairs _ := formed_pairs pairs
  reads pairs _ := congrArg (Option.map (putAll Prod.fst [])) (readPairs_written pairs)

-- One field of a struct: its name, its type, and when omitempty leaves it out.
structure StructField (S : Type) where
  name : Bytes
  Part : Type
  codec : Codec Part
  get : S → Part
  put : Part → S → S
  omits : Part → Bool
  omitted : ∀ part, omits part = true → codec.back part = codec.zero

namespace StructField

def always {S A : Type} (name : Bytes) (codec : Codec A) (get : S → A) (put : A → S → S) : StructField S :=
  ⟨name,A,codec,get,put,fun _ => false,by simp⟩

def omitempty {S : Type} (name : Bytes) (get : S → Bytes) (put : Bytes → S → S) : StructField S :=
  ⟨name,Bytes,text,get,put,List.isEmpty,by simp [text,repair]⟩

end StructField

section
variable {S : Type}

def layout (fields : List (StructField S)) : Layout S (StructField S) where
  fields := fields
  name := StructField.name
  value s field := if field.omits (field.get s) then none else some (field.codec.value (field.get s))
  assign s field shown := (field.codec.assign (field.get s) shown).map (fun part => field.put part s)

theorem layout_named {fields : List (StructField S)} (names : List Bytes)
    (shape : fields.map StructField.name = names) (distinct : (names.map foldName).Nodup)
    (valid : ∀ name ∈ names, Valid name) : (layout fields).Named where
  distinct := by
    rw [← shape,List.map_map] at distinct
    exact distinct
  valid field member := valid field.name (shape ▸ List.mem_map_of_mem member)

-- The struct that reading the fields in turn arrives at. A field still has its
-- zero value when it is read, which is what a field left out keeps.
def Rebuilds (s : S) : List (StructField S) → S → S → Prop
  | [],acc,out => acc = out
  | field :: rest,acc,out => field.get acc = field.codec.zero ∧ field.put (field.get acc) acc = acc ∧
      Rebuilds s rest (field.put (field.codec.back (field.get s)) acc) out

def FitsAll (s : S) : List (StructField S) → Prop
  | [] => True
  | field :: rest => field.codec.Fits (field.get s) ∧ FitsAll s rest

theorem FitsAll.field (fits : FitsAll s fields) {field : StructField S} (member : field ∈ fields) :
    field.codec.Fits (field.get s) := by
  induction fields with
  | nil => cases member
  | cons _ _ ih =>
    rcases List.mem_cons.mp member with rfl | later
    · exact fits.1
    · exact ih fits.2 later

theorem readField_back {fields : List (StructField S)} {s acc : S} {field : StructField S}
    (fits : field.codec.Fits (field.get s)) (fresh : field.get acc = field.codec.zero)
    (same : field.put (field.get acc) acc = acc) :
    (layout fields).readField s acc field = some (field.put (field.codec.back (field.get s)) acc) := by
  unfold Layout.readField layout
  dsimp only
  cases omits : field.omits (field.get s) with
  | true =>
    rw [field.omitted _ omits,← fresh,same]
    rfl
  | false =>
    simp only [Bool.false_eq_true,if_false]
    rw [fresh,field.codec.reads _ fits]
    rfl

theorem readFields_rebuilds (fields : List (StructField S)) (fits : FitsAll s fields)
    (builds : Rebuilds s fields acc out) : (layout all).readFields s acc fields = some out := by
  induction fields generalizing acc with
  | nil => exact congrArg some builds
  | cons _ _ ih =>
    obtain ⟨first,later⟩ := fits
    obtain ⟨fresh,same,more⟩ := builds
    rw [Layout.readFields_cons (readField_back first fresh same)]
    exact ih later more

def struct (zero : S) (fields : List (StructField S)) (back : S → S) (named : (layout fields).Named)
    (builds : ∀ s, Rebuilds s fields zero (back s)) : Codec S where
  zero := zero
  value s := .obj ((layout fields).members s)
  assign
    | old,.null => some old
    | old,.obj members => (layout fields).readMembers old members
    | _,_ => none
  back := back
  Fits s := FitsAll s fields
  formed := by
    intro s fits
    apply Layout.members_wellformed
    intro field member shown written
    dsimp only [layout] at written
    split at written
    · cases written
    · obtain rfl := Option.some.inj written
      exact field.codec.formed _ (fits.field member)
  reads := by
    intro s fits
    exact (Layout.readMembers_members named s zero).trans (readFields_rebuilds fields fits (builds s))

end

section
variable {A : Type} (codec : Codec A)

def Codec.marshal (style : Style) (a : A) : Bytes := write style 0 (quoteAll (codec.value a))

def Codec.unmarshal (data : Bytes) : Option A := (decode data).bind (codec.assign codec.zero)

theorem unmarshal_marshal (style : Style) (a : A) (fits : codec.Fits a) :
    codec.unmarshal (codec.marshal style a) = some (codec.back a) := by
  rw [Codec.unmarshal,Codec.marshal,decode_write style _ (codec.formed a fits)]
  exact codec.reads a fits

end
end Kronos.JsonCodec
