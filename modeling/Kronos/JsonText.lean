import Kronos.JsonString

namespace Kronos.JsonText
open ByteRange JsonString

-- A JSON document as its text has it: the tokens of strings and numbers as
-- they are written, the members of an object in their order.
inductive Json
  | null | bool (value : Bool) | num (text : Bytes) | str (text : Bytes) | arr (items : List Json)
  | obj (members : List (Bytes × Json))

def spaceByte (b : UInt8) : Bool := b = 32 || b = 9 || b = 10 || b = 13

-- Where the writer puts space: before each item and before the end of a list
-- that has items, by depth, and after a colon.
structure Style where
  gap : Nat → Bytes
  colon : Bytes
  gap_space : ∀ depth, ∀ b ∈ gap depth, spaceByte b = true
  colon_space : ∀ b ∈ colon, spaceByte b = true

def compact : Style := ⟨fun _ => [],[],by simp,by simp⟩

-- json.MarshalIndent with two spaces a level.
def indented : Style where
  gap depth := 10 :: List.replicate (2 * depth) 32
  colon := [32]
  gap_space := by
    intro depth b member
    rcases List.mem_cons.mp member with rfl | space
    · rfl
    · rw [List.eq_of_mem_replicate space]
      rfl
  colon_space := by simp [spaceByte]

def separator (first : Bool) : Bytes := if first then [] else [44]

mutual
def write (style : Style) (depth : Nat) : Json → Bytes
  | .null => [110,117,108,108]
  | .bool true => [116,114,117,101]
  | .bool false => [102,97,108,115,101]
  | .num text => text
  | .str token => 34 :: token ++ [34]
  | .arr items => 91 :: writeItems style depth true items
  | .obj members => 123 :: writeMembers style depth true members

def writeItems (style : Style) (depth : Nat) (first : Bool) : List Json → Bytes
  | [] => if first then [93] else style.gap depth ++ [93]
  | item :: rest => separator first ++ (style.gap (depth+1) ++
      (write style (depth+1) item ++ writeItems style depth false rest))

def writeMembers (style : Style) (depth : Nat) (first : Bool) : List (Bytes × Json) → Bytes
  | [] => if first then [125] else style.gap depth ++ [125]
  | (key,value) :: rest => separator first ++ (style.gap (depth+1) ++ 34 :: (key ++ 34 :: 58 ::
      (style.colon ++ (write style (depth+1) value ++ writeMembers style depth false rest))))
end

mutual
def size (style : Style) (depth : Nat) : Json → Nat
  | .null => 4
  | .bool true => 4
  | .bool false => 5
  | .num text => text.length
  | .str token => token.length + 2
  | .arr items => 1 + sizeItems style depth true items
  | .obj members => 1 + sizeMembers style depth true members

def sizeItems (style : Style) (depth : Nat) (first : Bool) : List Json → Nat
  | [] => if first then 1 else (style.gap depth).length + 1
  | item :: rest => (separator first).length + (style.gap (depth+1)).length + size style (depth+1) item +
      sizeItems style depth false rest

def sizeMembers (style : Style) (depth : Nat) (first : Bool) : List (Bytes × Json) → Nat
  | [] => if first then 1 else (style.gap depth).length + 1
  | (key,value) :: rest => (separator first).length + (style.gap (depth+1)).length + (key.length + 3) +
      style.colon.length + size style (depth+1) value + sizeMembers style depth false rest
end

mutual
theorem write_length (style : Style) : ∀ (document : Json) (depth : Nat),
    (write style depth document).length = size style depth document
  | .null,_ => rfl
  | .bool true,_ => rfl
  | .bool false,_ => rfl
  | .num _,_ => rfl
  | .str token,_ => by simp [write,size]
  | .arr items,depth => by
    rw [write,size,List.length_cons,writeItems_length style items depth true,Nat.add_comm]
  | .obj members,depth => by
    rw [write,size,List.length_cons,writeMembers_length style members depth true,Nat.add_comm]

theorem writeItems_length (style : Style) : ∀ (items : List Json) (depth : Nat) (first : Bool),
    (writeItems style depth first items).length = sizeItems style depth first items
  | [],depth,first => by cases first <;> simp [writeItems,sizeItems]
  | item :: rest,depth,first => by
    rw [writeItems,sizeItems,List.length_append,List.length_append,List.length_append,
      write_length style item (depth+1),writeItems_length style rest depth false]
    omega

theorem writeMembers_length (style : Style) : ∀ (members : List (Bytes × Json)) (depth : Nat) (first : Bool),
    (writeMembers style depth first members).length = sizeMembers style depth first members
  | [],depth,first => by cases first <;> simp [writeMembers,sizeMembers]
  | (key,value) :: rest,depth,first => by
    simp only [writeMembers,sizeMembers,List.length_append,List.length_cons]
    rw [write_length style value (depth+1),writeMembers_length style rest depth false]
    omega
end

theorem sizeMembers_snoc (style : Style) (depth : Nat) (shown : members ≠ []) (first : Bool) (key : Bytes)
    (value : Json) : sizeMembers style depth first (members ++ [(key,value)]) =
      sizeMembers style depth first members + (1 + (style.gap (depth+1)).length + (key.length + 3) +
        style.colon.length + size style (depth+1) value) := by
  induction members generalizing first with
  | nil => exact absurd rfl shown
  | cons _ rest ih =>
    cases rest with
    | nil =>
      simp only [List.cons_append,List.nil_append,sizeMembers,separator,Bool.false_eq_true,if_false,List.length_cons,
        List.length_nil]
      omega
    | cons =>
      rw [List.cons_append,sizeMembers,sizeMembers,ih (List.cons_ne_nil _ _)]
      omega

def digitByte (b : UInt8) : Bool := 48 ≤ b && b ≤ 57

def numeralByte (b : UInt8) : Bool :=
  digitByte b || b = 43 || b = 45 || b = 46 || b = 69 || b = 101

-- The grammar of a number: a sign, an integer without leading zeros, a
-- fraction and an exponent, each part after the first optional.
def exponent : Bytes → Bool
  | [] => true
  | b :: rest =>
    (b = 69 || b = 101) &&
      match rest with
      | [] => false
      | sign :: later =>
        if sign = 43 || sign = 45 then !later.isEmpty && later.all digitByte
        else (sign :: later).all digitByte

def fraction : Bytes → Bool
  | [] => true
  | b :: rest =>
    if b = 46 then rest.head?.any digitByte && exponent (rest.dropWhile digitByte)
    else exponent (b :: rest)

def integer : Bytes → Bool
  | [] => false
  | b :: rest =>
    if b = 48 then fraction rest else digitByte b && fraction (rest.dropWhile digitByte)

def number : Bytes → Bool
  | [] => false
  | b :: rest => if b = 45 then integer rest else integer (b :: rest)

def skip (text : Bytes) : Bytes := text.dropWhile spaceByte

def literal (word : Bytes) (value : Json) (text : Bytes) : Option (Json × Bytes) :=
  if text.take word.length = word then some (value,text.drop word.length) else none

def expect (byte : UInt8) (text : Bytes) : Option Bytes :=
  match skip text with
  | b :: rest => if b = byte then some rest else none
  | [] => none

def afterSeparator (first : Bool) (text : Bytes) : Option Bytes :=
  if first then some text else expect 44 text

mutual
def parse : Nat → Bytes → Option (Json × Bytes)
  | 0,_ => none
  | fuel+1,text =>
    match skip text with
    | [] => none
    | b :: rest =>
      if b = 34 then (readString rest).map (fun (token,rest) => (.str token,rest))
      else if b = 91 then (parseItems true fuel rest).map (fun (items,rest) => (.arr items,rest))
      else if b = 123 then (parseMembers true fuel rest).map (fun (members,rest) => (.obj members,rest))
      else if b = 110 then literal [110,117,108,108] .null (b :: rest)
      else if b = 116 then literal [116,114,117,101] (.bool true) (b :: rest)
      else if b = 102 then literal [102,97,108,115,101] (.bool false) (b :: rest)
      else if number ((b :: rest).takeWhile numeralByte) then
        some (.num ((b :: rest).takeWhile numeralByte),(b :: rest).dropWhile numeralByte)
      else none

def parseItems (first : Bool) : Nat → Bytes → Option (List Json × Bytes)
  | 0,_ => none
  | fuel+1,text =>
    match expect 93 text with
    | some rest => some ([],rest)
    | none => do
      let text ← afterSeparator first text
      let (item,rest) ← parse fuel text
      let (items,rest) ← parseItems false fuel rest
      return (item :: items,rest)

def parseMembers (first : Bool) : Nat → Bytes → Option (List (Bytes × Json) × Bytes)
  | 0,_ => none
  | fuel+1,text =>
    match expect 125 text with
    | some rest => some ([],rest)
    | none => do
      let text ← afterSeparator first text
      let text ← expect 34 text
      let (key,rest) ← readString text
      let rest ← expect 58 rest
      let (value,rest) ← parse fuel rest
      let (members,rest) ← parseMembers false fuel rest
      return ((key,value) :: members,rest)
end

-- A whole text is one document and nothing after it but space.
def decode (text : Bytes) : Option Json :=
  match parse text.length text with
  | some (document,rest) => if skip rest = [] then some document else none
  | none => none

def Numeral (text : Bytes) : Prop := number text = true ∧ ∀ b ∈ text, numeralByte b = true

instance (text : Bytes) : Decidable (Numeral text) :=
  inferInstanceAs (Decidable (number text = true ∧ ∀ b ∈ text, numeralByte b = true))

mutual
def Wellformed : Json → Prop
  | .null => True
  | .bool _ => True
  | .num text => Numeral text
  | .str token => Token token
  | .arr items => WellformedItems items
  | .obj members => WellformedMembers members

def WellformedItems : List Json → Prop
  | [] => True
  | item :: rest => Wellformed item ∧ WellformedItems rest

def WellformedMembers : List (Bytes × Json) → Prop
  | [] => True
  | (key,value) :: rest => Token key ∧ Wellformed value ∧ WellformedMembers rest
end

-- What may follow a document: nothing that a number would swallow.
def Stops (rest : Bytes) : Prop := rest.takeWhile numeralByte = []

def Starts (b : UInt8) : Prop := spaceByte b = false ∧ b ≠ 93

theorem skip_cons (plain : spaceByte b = false) (rest : Bytes) : skip (b :: rest) = b :: rest := by
  rw [skip,List.dropWhile_cons_of_neg (by simp [plain])]

theorem expect_same {b : UInt8} (plain : spaceByte b = false) (rest : Bytes) : expect b (b :: rest) = some rest := by
  simp only [expect,skip_cons plain,if_true]

theorem expect_other (plain : spaceByte b = false) (other : b ≠ c) (rest : Bytes) : expect c (b :: rest) = none := by
  simp only [expect,skip_cons plain,if_neg other]

theorem numeral_starts (numeral : numeralByte b = true) : Starts b := by
  constructor
  · cases space : spaceByte b with
    | false => rfl
    | true =>
      simp only [spaceByte,Bool.or_eq_true,decide_eq_true_eq] at space
      rcases space with ((rfl | rfl) | rfl) | rfl <;> exact absurd numeral (by decide)
  · intro same
    subst same
    exact absurd numeral (by decide)

theorem write_starts (style : Style) (depth : Nat) (document : Json) (formed : Wellformed document) :
    ∃ b rest, write style depth document = b :: rest ∧ Starts b := by
  cases document with
  | null | str | arr | obj => exact ⟨_,_,rfl,by decide,by decide⟩
  | bool value => cases value <;> exact ⟨_,_,rfl,by decide,by decide⟩
  | num text =>
    cases text with
    | nil => cases formed.1
    | cons b rest => exact ⟨b,rest,rfl,numeral_starts (formed.2 b List.mem_cons_self)⟩

theorem write_pos (style : Style) (depth : Nat) (document : Json) (formed : Wellformed document) :
    0 < (write style depth document).length := by
  obtain ⟨_,_,shape,_⟩ := write_starts style depth document formed
  simp [shape]

section
variable (style : Style) (depth : Nat) (first : Bool) (items : List Json)

theorem writeItems_pos : 0 < (writeItems style depth first items).length := by
  induction items generalizing first with
  | nil => cases first <;> simp [writeItems]
  | cons _ _ ih =>
    have later := ih false
    simp only [writeItems,List.length_append]
    omega

theorem writeMembers_pos (members : List (Bytes × Json)) : 0 < (writeMembers style depth first members).length := by
  cases members with
  | nil => cases first <;> simp [writeMembers]
  | cons =>
    simp only [writeMembers,List.length_append,List.length_cons]
    omega

theorem skip_space (space : ∀ b ∈ gap, spaceByte b = true) (rest : Bytes) :
    skip (gap ++ rest) = skip rest := List.dropWhile_append_of_pos space

theorem expect_space (space : ∀ b ∈ gap, spaceByte b = true) (mark : UInt8) (rest : Bytes) :
    expect mark (gap ++ rest) = expect mark rest := by
  simp only [expect,skip_space space]

theorem parse_space (space : ∀ b ∈ gap, spaceByte b = true) (fuel : Nat) (rest : Bytes) :
    parse (fuel+1) (gap ++ rest) = parse (fuel+1) rest := by
  simp only [parse,skip_space space]

theorem stops_space (space : ∀ b ∈ gap, spaceByte b = true) (stops : Stops rest) : Stops (gap ++ rest) := by
  cases gap with
  | nil => exact stops
  | cons b =>
    have blank := space b List.mem_cons_self
    have plain : numeralByte b = false := by
      cases numeral : numeralByte b with
      | false => rfl
      | true => rw [(numeral_starts numeral).1] at blank; cases blank
    rw [List.cons_append,Stops,List.takeWhile_cons_of_neg (by simp [plain])]

theorem writeItems_stops (rest : Bytes) : Stops (writeItems style depth false items ++ rest) := by
  cases items with
  | nil =>
    rw [writeItems,if_neg (by simp),List.append_assoc]
    exact stops_space (style.gap_space depth) rfl
  | cons => rfl

theorem writeMembers_stops (members : List (Bytes × Json)) (rest : Bytes) :
    Stops (writeMembers style depth false members ++ rest) := by
  cases members with
  | nil =>
    rw [writeMembers,if_neg (by simp),List.append_assoc]
    exact stops_space (style.gap_space depth) rfl
  | cons => rfl

theorem afterSeparator_separator (rest : Bytes) : afterSeparator first (separator first ++ rest) = some rest := by
  cases first with
  | true => rfl
  | false => exact @expect_same 44 (by decide) rest

-- An item never reads as the end of its list.
theorem expect_separator (space : ∀ b ∈ gap, spaceByte b = true) (plain : spaceByte b = false)
    (other : b ≠ close) (comma : close ≠ 44) (rest : Bytes) :
    expect close (separator first ++ (gap ++ b :: rest)) = none := by
  cases first with
  | true => exact (expect_space space close _).trans (expect_other plain other rest)
  | false => exact expect_other (by decide) comma.symm _

theorem expect_end {gap : Bytes} (space : ∀ b ∈ gap, spaceByte b = true) {close : UInt8}
    (plain : spaceByte close = false) (rest : Bytes) :
    expect close ((if first then [close] else gap ++ [close]) ++ rest) = some rest := by
  cases first with
  | true => exact expect_same plain rest
  | false =>
    rw [if_neg (by simp),List.append_assoc,expect_space space]
    exact expect_same plain rest

end

theorem parse_numeral (text rest : Bytes) (numeral : Numeral text) (stops : Stops rest) (fuel : Nat) :
    parse (fuel+1) (text ++ rest) = some (.num text,rest) := by
  obtain ⟨grammar,all⟩ := numeral
  cases text with
  | nil => cases grammar
  | cons b later =>
    have first := all b List.mem_cons_self
    have kept := @List.takeWhile_append_dropWhile _ numeralByte rest
    rw [stops,List.nil_append] at kept
    have taken : (b :: later ++ rest).takeWhile numeralByte = b :: later := by
      rw [List.takeWhile_append_of_pos all,stops,List.append_nil]
    have left : (b :: later ++ rest).dropWhile numeralByte = rest := by
      rw [List.dropWhile_append_of_pos all,kept]
    rw [List.cons_append] at taken left
    have other : ∀ c : UInt8, numeralByte c = false → b ≠ c := by
      intro c plain same
      rw [same,plain] at first
      cases first
    simp only [List.cons_append,parse,skip_cons (numeral_starts first).1,if_neg (other 34 (by decide)),
      if_neg (other 91 (by decide)),if_neg (other 123 (by decide)),if_neg (other 110 (by decide)),
      if_neg (other 116 (by decide)),if_neg (other 102 (by decide)),taken,left,grammar,if_true]

mutual
theorem parse_write (style : Style) : ∀ (document : Json), Wellformed document →
    ∀ (depth fuel : Nat) (rest : Bytes), (write style depth document).length ≤ fuel+1 → Stops rest →
      parse (fuel+1) (write style depth document ++ rest) = some (document,rest)
  | .null,_,_,_,_,_,_ => rfl
  | .bool true,_,_,_,_,_,_ => rfl
  | .bool false,_,_,_,_,_,_ => rfl
  | .num text,numeral,_,fuel,rest,_,stops => parse_numeral text rest numeral stops fuel
  | .str token,readable,_,fuel,rest,_,_ => by
    simp only [write,List.cons_append,List.append_assoc,List.nil_append,parse,
      skip_cons (show spaceByte 34 = false by decide),if_true]
    rw [readable rest]
    rfl
  | .arr items,formed,depth,fuel,rest,enough,_ => by
    simp only [write,List.length_cons] at enough
    have some_byte := writeItems_pos style depth true items
    obtain ⟨fuel,rfl⟩ : ∃ n, fuel = n + 1 := ⟨fuel - 1,by omega⟩
    have inner := parseItems_write style items formed depth true fuel rest (by omega)
    simp only [write,List.cons_append,parse,skip_cons (show spaceByte 91 = false by decide),inner]
    rfl
  | .obj members,formed,depth,fuel,rest,enough,_ => by
    simp only [write,List.length_cons] at enough
    have some_byte := writeMembers_pos style depth true members
    obtain ⟨fuel,rfl⟩ : ∃ n, fuel = n + 1 := ⟨fuel - 1,by omega⟩
    have inner := parseMembers_write style members formed depth true fuel rest (by omega)
    simp only [write,List.cons_append,parse,skip_cons (show spaceByte 123 = false by decide),inner]
    rfl

theorem parseItems_write (style : Style) : ∀ (items : List Json), WellformedItems items →
    ∀ (depth : Nat) (first : Bool) (fuel : Nat) (rest : Bytes),
      (writeItems style depth first items).length ≤ fuel+1 →
        parseItems first (fuel+1) (writeItems style depth first items ++ rest) = some (items,rest)
  | [],_,depth,first,fuel,rest,_ => by
    rw [parseItems,writeItems,expect_end first (style.gap_space depth) (by decide)]
  | item :: items,formed,depth,first,fuel,rest,enough => by
    obtain ⟨head,later⟩ := formed
    have some_byte := write_pos style (depth+1) item head
    have closing := writeItems_pos style depth false items
    simp only [writeItems,List.length_append] at enough
    obtain ⟨fuel,rfl⟩ : ∃ n, fuel = n + 1 := ⟨fuel - 1,by omega⟩
    have inner := parse_write style item head (depth+1) fuel (writeItems style depth false items ++ rest)
      (by omega) (writeItems_stops style depth items rest)
    have tail := parseItems_write style items later depth false fuel rest (by omega)
    obtain ⟨_,_,shape,plain,other⟩ := write_starts style (depth+1) item head
    have open_ : expect 93 (separator first ++ (style.gap (depth+1) ++ (write style (depth+1) item ++
        (writeItems style depth false items ++ rest)))) = none := by
      rw [shape,List.cons_append]
      exact expect_separator first (style.gap_space _) plain other (by decide) _
    rw [parseItems]
    simp only [writeItems,List.append_assoc,open_,afterSeparator_separator,
      parse_space (style.gap_space _),inner,tail,Option.bind_eq_bind,Option.bind_some]
    rfl

theorem parseMembers_write (style : Style) : ∀ (members : List (Bytes × Json)), WellformedMembers members →
    ∀ (depth : Nat) (first : Bool) (fuel : Nat) (rest : Bytes),
      (writeMembers style depth first members).length ≤ fuel+1 →
        parseMembers first (fuel+1) (writeMembers style depth first members ++ rest) = some (members,rest)
  | [],_,depth,first,fuel,rest,_ => by
    rw [parseMembers,writeMembers,expect_end first (style.gap_space depth) (by decide)]
  | (key,value) :: members,formed,depth,first,fuel,rest,enough => by
    obtain ⟨named,head,later⟩ := formed
    simp only [writeMembers,List.length_append,List.length_cons] at enough
    obtain ⟨fuel,rfl⟩ : ∃ n, fuel = n + 1 := ⟨fuel - 1,by omega⟩
    have inner := parse_write style value head (depth+1) fuel
      (writeMembers style depth false members ++ rest) (by omega)
      (writeMembers_stops style depth members rest)
    have tail := parseMembers_write style members later depth false fuel rest (by omega)
    have open_ := expect_separator first (style.gap_space (depth+1)) (show spaceByte 34 = false by decide)
      (show (34 : UInt8) ≠ 125 by decide) (by decide)
      (key ++ 34 :: 58 :: (style.colon ++ (write style (depth+1) value ++
        (writeMembers style depth false members ++ rest))))
    have opening := @expect_same 34 (by decide) (key ++ 34 :: 58 :: (style.colon ++
      (write style (depth+1) value ++ (writeMembers style depth false members ++ rest))))
    have colon := @expect_same 58 (by decide) (style.colon ++ (write style (depth+1) value ++
      (writeMembers style depth false members ++ rest)))
    rw [parseMembers]
    simp only [writeMembers,List.append_assoc,List.cons_append,open_,afterSeparator_separator,
      expect_space (style.gap_space _),opening,named _,colon,parse_space style.colon_space,inner,tail,
      Option.bind_eq_bind,Option.bind_some]
    rfl
end

theorem decode_write (style : Style) (document : Json) (formed : Wellformed document) :
    decode (write style 0 document) = some document := by
  have some_byte := write_pos style 0 document formed
  have parsed := parse_write style document formed 0 ((write style 0 document).length - 1) [] (by omega) rfl
  rw [Nat.sub_add_cancel some_byte,List.append_nil] at parsed
  simp only [decode,parsed]
  rfl

-- Two documents never have one text.
theorem write_injective (style : Style) (left : Wellformed a) (right : Wellformed b)
    (same : write style 0 a = write style 0 b) : a = b := by
  have read_left := decode_write style a left
  rw [same,decode_write style b right] at read_left
  exact (Option.some.inj read_left).symm

end Kronos.JsonText
