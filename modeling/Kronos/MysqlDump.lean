import Kronos.Strings

namespace Kronos.MysqlDump
open ByteRange Utf8 Strings

structure MysqlTable where
  schema : Bytes
  name : Bytes
  deriving DecidableEq, Repr

-- A cell of a result row; `none` is the nil pointer of a NULL.
abbrev Cell := Option Bytes

def quoteMysqlIdentifier (name : Bytes) : Bytes := 96 :: (doubled 96 name ++ [96])

-- The values written without quotes.
def special (value : Bytes) : Bool :=
  toUpper value = ascii "NULL" || toUpper value = ascii "CURRENT_TIMESTAMP" || (ascii "0X").isPrefixOf (toUpper value)

def mysqlQuoteValue (value : Bytes) : Bytes := if special value then value else 39 :: (doubled 39 value ++ [39])

def join (texts : List Bytes) : Bytes := (ascii ", ").intercalate texts

def cells (columns : List Bytes) (row : List Cell) : List Cell :=
  (List.range columns.length).map fun i => (row[i]?).getD none

def cellText : Cell → Bytes
  | none => ascii "NULL"
  | some value => mysqlQuoteValue value

def insertStatement (table : MysqlTable) (columns : List Bytes) (row : List Cell) : Bytes :=
  ascii "INSERT INTO " ++ quoteMysqlIdentifier table.schema ++ ascii "." ++ quoteMysqlIdentifier table.name ++
    ascii " (" ++ join (columns.map quoteMysqlIdentifier) ++ ascii ") VALUES (" ++
    join ((cells columns row).map cellText) ++ ascii ");\n"

def writeMySQLTableData (table : MysqlTable) (columns : List Bytes) (rows : List (List Cell)) : Bytes :=
  rows.flatMap (insertStatement table columns)

-- The server's side, in the default mode with backslash escapes: what a value
-- position holds.
inductive Evaluated where
  | null | text (value : Bytes) | now | name (word : Bytes)
  deriving DecidableEq, Repr

-- A backslash and the byte after it. Before % and _ the backslash stays.
def escape (b : UInt8) : Bytes :=
  if b = 48 then [0]
  else if b = 98 then [8]
  else if b = 110 then [10]
  else if b = 114 then [13]
  else if b = 116 then [9]
  else if b = 90 then [26]
  else if b = 37 ∨ b = 95 then [92,b]
  else [b]

-- A string literal after its opening quote: its value and what follows it.
def readLiteral : Bytes → Option (Bytes × Bytes)
  | [] => none
  | 39 :: 39 :: rest => (readLiteral rest).map fun read => (39 :: read.1,read.2)
  | 39 :: rest => some ([],rest)
  | 92 :: b :: rest => (readLiteral rest).map fun read => (escape b ++ read.1,read.2)
  | [92] => none
  | b :: rest => (readLiteral rest).map fun read => (b :: read.1,read.2)

def wordByte (b : UInt8) : Bool :=
  (48 ≤ b && b ≤ 57) || (65 ≤ b && b ≤ 90) || (97 ≤ b && b ≤ 122) || b = 95 || b = 36 || 128 ≤ b

def hexDigit (b : UInt8) : Option UInt8 :=
  if 48 ≤ b ∧ b ≤ 57 then some (b - 48)
  else if 65 ≤ b ∧ b ≤ 70 then some (b - 55)
  else if 97 ≤ b ∧ b ≤ 102 then some (b - 87)
  else none

def hexPairs : Bytes → Option Bytes
  | [] => some []
  | high :: low :: rest => do
    let high ← hexDigit high
    let low ← hexDigit low
    let rest ← hexPairs rest
    return (high * 16 + low) :: rest
  | [_] => none

-- 0x and hexadecimal digits, with a zero before an odd number of them.
def hexLiteral : Bytes → Option Bytes
  | 48 :: 120 :: digits => if digits = [] then none
    else if digits.length % 2 = 0 then hexPairs digits else hexPairs (48 :: digits)
  | _ => none

def upperAscii (word : Bytes) : Bytes := word.map fun b => if 97 ≤ b ∧ b ≤ 122 then b - 32 else b

def readWord (word : Bytes) : Evaluated :=
  if upperAscii word = ascii "NULL" then .null
  else if upperAscii word = ascii "CURRENT_TIMESTAMP" then .now
  else match hexLiteral word with
    | some value => .text value
    | none => .name word

def readToken : Bytes → Option (Evaluated × Bytes)
  | 39 :: rest => (readLiteral rest).map fun read => (.text read.1,read.2)
  | input =>
    if input.takeWhile wordByte = [] then none
    else some (readWord (input.takeWhile wordByte),input.dropWhile wordByte)

def readName : Bytes → Option (Bytes × Bytes) := readQuoted 96

-- Items between commas, after the opening parenthesis.
def readItems (one : Bytes → Option (α × Bytes)) : Nat → Bytes → Option (List α × Bytes)
  | 0,_ => none
  | fuel+1,input => do
    let (item,rest) ← one input
    match rest with
    | 41 :: rest => some ([item],rest)
    | 44 :: 32 :: rest =>
      let (items,rest) ← readItems one fuel rest
      return (item :: items,rest)
    | _ => none

def readList (one : Bytes → Option (α × Bytes)) : Bytes → Option (List α × Bytes)
  | 41 :: rest => some ([],rest)
  | input => readItems one input.length input

structure Insert where
  table : MysqlTable
  columns : List Bytes
  values : List Evaluated
  deriving DecidableEq, Repr

def readInsert (input : Bytes) : Option (Insert × Bytes) := do
  let rest ← input.dropPrefix? (ascii "INSERT INTO ")
  let (schema,rest) ← readName rest
  let rest ← rest.dropPrefix? (ascii ".")
  let (name,rest) ← readName rest
  let rest ← rest.dropPrefix? (ascii " (")
  let (columns,rest) ← readList readName rest
  let rest ← rest.dropPrefix? (ascii " VALUES (")
  let (values,rest) ← readList readToken rest
  let rest ← rest.dropPrefix? (ascii ";\n")
  return (⟨⟨schema,name⟩,columns,values⟩,rest)

def readInserts : Nat → Bytes → Option (List Insert)
  | _,[] => some []
  | 0,_ => none
  | fuel+1,input => do
    let (insert,rest) ← readInsert input
    let inserts ← readInserts fuel rest
    return insert :: inserts

def readDump (input : Bytes) : Option (List Insert) := readInserts input.length input

def Cell.evaluated : Cell → Evaluated
  | none => .null
  | some value => .text value

-- Every backslash stands before % or _.
def kept : Bytes → Bool
  | [] => true
  | 92 :: b :: rest => (b = 37 || b = 95) && kept rest
  | [92] => false
  | _ :: rest => kept rest

def Plain : Cell → Prop
  | none => True
  | some value => special value = false ∧ kept value = true

theorem literal_quote (rest : Bytes) :
    readLiteral (39 :: 39 :: rest) = (readLiteral rest).map fun read => (39 :: read.1,read.2) := by
  rw [readLiteral]

theorem literal_end {rest : Bytes} (next : rest.head? ≠ some 39) : readLiteral (39 :: rest) = some ([],rest) := by
  cases rest with
  | nil => rfl
  | cons b =>
    have other : b ≠ 39 := fun same => next (by rw [same]; rfl)
    rw [readLiteral]
    simpa using fun same => absurd same other

theorem literal_escape (b : UInt8) (rest : Bytes) :
    readLiteral (92 :: b :: rest) = (readLiteral rest).map fun read => (escape b ++ read.1,read.2) := by
  rw [readLiteral]

theorem literal_byte (quote : b ≠ 39) (slash : b ≠ 92) (rest : Bytes) :
    readLiteral (b :: rest) = (readLiteral rest).map fun read => (b :: read.1,read.2) := by
  rw [readLiteral]
  all_goals simp_all

-- How the server reads the literal of a value: byte by byte, the closing quote
-- and what follows it included.
section Written
variable (tail : Bytes)

def written (value : Bytes) : Bytes := doubled 39 value ++ 39 :: tail

theorem written_byte {b : UInt8} (slash : b ≠ 92) (rest : Bytes) : readLiteral (written tail (b :: rest)) =
    (readLiteral (written tail rest)).map fun read => (b :: read.1,read.2) := by
  by_cases quote : b = 39
  · subst quote
    exact literal_quote _
  · have single : written tail (b :: rest) = b :: written tail rest := by simp [written,doubled,quote]
    rw [single,literal_byte quote slash]

theorem written_pair {b : UInt8} (quote : b ≠ 39) (rest : Bytes) : readLiteral (written tail (92 :: b :: rest)) =
    (readLiteral (written tail rest)).map fun read => (escape b ++ read.1,read.2) := by
  have pair : written tail (92 :: b :: rest) = 92 :: b :: written tail rest := by simp [written,doubled,quote]
  rw [pair,literal_escape]

end Written

variable {tail : Bytes}

theorem unpaired {b : UInt8} {rest : Bytes} (pair : ∀ c others, b = 92 → rest = c :: others → False)
    (single : b = 92 → rest = [] → False) : b ≠ 92 := by
  intro slash
  cases rest with
  | nil => exact single slash rfl
  | cons c others => exact pair c others slash rfl

theorem literal_kept (next : tail.head? ≠ some 39) (value : Bytes) (clean : kept value = true) :
    readLiteral (written tail value) = some (value,tail) := by
  fun_induction kept value with
  | case1 => exact literal_end next
  | case2 b _ ih =>
    simp only [Bool.and_eq_true,Bool.or_eq_true,decide_eq_true_eq] at clean
    have quote : b ≠ 39 := by
      rintro rfl
      exact absurd clean.1 (by decide)
    have stays : escape b = [92,b] := by rcases clean.1 with rfl | rfl <;> rfl
    rw [written_pair tail quote,ih clean.2,stays]
    rfl
  | case3 => cases clean
  | case4 _ _ pair single ih =>
    have slash := unpaired pair single
    rw [written_byte tail slash,ih clean]
    rfl

theorem escape_slash {read : Bytes} (same : escape b ++ rest = 92 :: read) :
    b = 92 ∧ rest = read ∨ (b = 37 ∨ b = 95) ∧ b :: rest = read := by
  unfold escape at same
  repeat' split at same
  all_goals simp_all

-- A value read behind a backslash that starts with a backslash: a pair was read
-- as one, or the backslash stood before % or _.
theorem pair_slash {b : UInt8} {value read rest : Bytes}
    (ran : readLiteral (written tail (92 :: b :: value)) = some (92 :: read,rest)) :
    b = 92 ∧ readLiteral (written tail value) = some (read,rest) ∨
      (b = 37 ∨ b = 95) ∧ ∃ later, readLiteral (written tail value) = some (later,rest) ∧ read = b :: later := by
  by_cases quote : b = 39
  · subst quote
    obtain ⟨_,_,same⟩ := Option.map_eq_some_iff.mp ran
    cases same
  · rw [written_pair tail quote] at ran
    obtain ⟨⟨later,_⟩,step,same⟩ := Option.map_eq_some_iff.mp ran
    obtain ⟨text,rfl⟩ := Prod.mk.inj same
    rcases escape_slash text with ⟨back,rfl⟩ | ⟨stays,rfl⟩
    · exact .inl ⟨back,step⟩
    · exact .inr ⟨stays,later,step,rfl⟩

theorem last_slash {read : Bytes} : readLiteral (written tail [92]) ≠ some (92 :: read,rest) := by
  intro ran
  obtain ⟨_,_,same⟩ := Option.map_eq_some_iff.mp ran
  cases same

-- Once a pair of backslashes was read as one, the value read runs behind the one
-- written and never catches up.
theorem literal_behind (next : tail.head? ≠ some 39) (value : Bytes) (n : Nat) (rest : Bytes) :
    readLiteral (written tail value) ≠ some (List.replicate (n+1) 92 ++ value,rest) := by
  fun_induction kept value generalizing n with
  | case1 =>
    intro ran
    rw [written,doubled,List.flatMap_nil,List.nil_append,literal_end next] at ran
    cases ran
  | case2 b others ih =>
    intro ran
    rw [List.replicate_succ,List.cons_append] at ran
    rcases pair_slash ran with ⟨rfl,later⟩ | ⟨stays,later,_,same⟩
    · have longer : List.replicate n 92 ++ 92 :: 92 :: others = List.replicate (n+1+1) 92 ++ others := by
        simp [List.replicate_succ']
      exact ih (n+1) (by rw [later,longer])
    · have first : b = 92 := by
        cases n with
        | zero | succ => exact ((List.cons.inj same).1).symm
      subst first
      revert stays
      decide
  | case3 =>
    exact last_slash
  | case4 _ _ pair single =>
    intro ran
    have slash := unpaired pair single
    rw [written_byte tail slash,List.replicate_succ,List.cons_append] at ran
    obtain ⟨_,_,same⟩ := Option.map_eq_some_iff.mp ran
    exact slash (List.cons.inj (Prod.mk.inj same).1).1

theorem literal_clean (next : tail.head? ≠ some 39) (value rest : Bytes)
    (ran : readLiteral (written tail value) = some (value,rest)) : kept value = true := by
  fun_induction kept value with
  | case1 => rfl
  | case2 _ others ih =>
    rcases pair_slash ran with ⟨rfl,later⟩ | ⟨stays,later,step,same⟩
    · exact absurd later (literal_behind next others 0 rest)
    · obtain rfl := (List.cons.inj same).2
      simp [stays,ih step]
  | case3 => exact absurd ran last_slash
  | case4 _ _ pair single ih =>
    have slash := unpaired pair single
    rw [written_byte tail slash] at ran
    obtain ⟨⟨_,_⟩,step,same⟩ := Option.map_eq_some_iff.mp ran
    obtain ⟨text,rfl⟩ := Prod.mk.inj same
    obtain rfl := (List.cons.inj text).2
    exact ih step

-- What may follow an item of a list.
def Ends (tail : Bytes) : Prop := tail.head? = some 44 ∨ tail.head? = some 41

theorem Ends.unquoted (ends : Ends tail) : tail.head? ≠ some 39 := by
  rcases ends with comma | paren
  · rw [comma]; decide
  · rw [paren]; decide

theorem word_ends (ends : Ends tail) (word : Bytes) : (word ++ tail).takeWhile wordByte = word.takeWhile wordByte := by
  have stops : tail.takeWhile wordByte = [] := by
    cases tail with
    | nil => rfl
    | cons b =>
      have first : b = 44 ∨ b = 41 := by simpa [Ends] using ends
      rcases first with rfl | rfl <;> rfl
  induction word with
  | nil => exact stops
  | cons _ _ ih =>
    rw [List.cons_append,List.takeWhile_cons,List.takeWhile_cons,ih]

theorem hexPairs_length (read : hexPairs digits = some value) : value.length ≤ digits.length := by
  fun_induction hexPairs digits generalizing value with
  | case1 => cases read; simp
  | case2 _ _ _ ih =>
    simp only [Option.bind_eq_bind,Option.bind_eq_some_iff] at read
    obtain ⟨_,_,_,_,_,later,same⟩ := read
    cases same
    have shorter := ih later
    simp only [List.length_cons]
    omega
  | case3 => cases read

theorem readWord_shorter (read : readWord word = .text value) : value.length < word.length := by
  unfold readWord at read
  split at read
  · cases read
  split at read
  · cases read
  cases hex : hexLiteral word with
  | none => simp [hex] at read
  | some =>
    simp only [hex,Evaluated.text.injEq] at read
    subst read
    unfold hexLiteral at hex
    split at hex
    · split at hex
      · cases hex
      split at hex
      · have bound := hexPairs_length hex
        simp only [List.length_cons]
        omega
      · have bound := hexPairs_length hex
        simp only [List.length_cons] at bound ⊢
        omega
    · cases hex

theorem special_first (bare : special value = true) : ∃ b rest, value = b :: rest ∧ b ≠ 39 ∧ b ≠ 41 := by
  cases value with
  | nil => cases bare
  | cons b rest =>
    have marked : b = 39 ∨ b = 41 → special (b :: rest) = false := by
      intro mark
      have upper : toUpper (b :: rest) = b :: toUpper rest := by
        rcases mark with rfl | rfl
        all_goals rfl
      rcases mark with rfl | rfl
      all_goals
        simp [special,upper,ascii]
        rfl
    refine ⟨b,rest,rfl,fun quote => ?_,fun paren => ?_⟩
    · rw [marked (.inl quote)] at bare
      cases bare
    · rw [marked (.inr paren)] at bare
      cases bare

theorem readToken_word (unquoted : input.head? ≠ some 39) : readToken input = if input.takeWhile wordByte = [] then none
      else some (readWord (input.takeWhile wordByte),input.dropWhile wordByte) := by
  rw [readToken]
  intro rest same
  rw [same] at unquoted
  exact unquoted rfl

theorem token_exact (ends : Ends tail) (cell : Cell) (rest : Bytes) :
    readToken (cellText cell ++ tail) = some (cell.evaluated,rest) ↔ Plain cell ∧ tail = rest := by
  cases cell with
  | none =>
    have word := word_ends ends (ascii "NULL")
    have after : (ascii "NULL" ++ tail).dropWhile wordByte = tail := by
      have whole := @List.takeWhile_append_dropWhile _ wordByte (ascii "NULL" ++ tail)
      rw [word] at whole
      exact List.append_cancel_left whole
    have first : (ascii "NULL" ++ tail).head? ≠ some 39 := fun same => by cases same
    rw [cellText,readToken_word first,word,after]
    exact ⟨fun ran => ⟨trivial,(Prod.mk.inj (Option.some.inj ran)).2⟩,fun same => by rw [same.2]; rfl⟩
  | some value =>
    cases bare : special value with
    | true =>
      obtain ⟨_,_,shape,unquoted,_⟩ := special_first bare
      have text : cellText (some value) = value := by simp [cellText,mysqlQuoteValue,bare]
      have first : (value ++ tail).head? ≠ some 39 := by simpa [shape] using unquoted
      refine ⟨fun ran => ?_,fun plain => nomatch bare.symm.trans plain.1.1⟩
      rw [text,readToken_word first,word_ends ends] at ran
      split at ran
      · cases ran
      · obtain ⟨read,_⟩ := Prod.mk.inj (Option.some.inj ran)
        have shorter := readWord_shorter read
        have within := (@List.takeWhile_sublist _ value wordByte).length_le
        omega
    | false =>
      have text : cellText (some value) ++ tail = 39 :: written tail value := by
        simp [cellText,mysqlQuoteValue,bare,written]
      rw [text,readToken]
      constructor
      · intro ran
        obtain ⟨⟨_,_⟩,step,same⟩ := Option.map_eq_some_iff.mp ran
        obtain ⟨value,rfl⟩ := Prod.mk.inj same
        cases value
        have clean := literal_clean ends.unquoted _ _ step
        rw [literal_kept ends.unquoted _ clean] at step
        exact ⟨⟨bare,clean⟩,(Prod.mk.inj (Option.some.inj step)).2⟩
      · rintro ⟨⟨_,clean⟩,rfl⟩
        rw [literal_kept ends.unquoted value clean]
        rfl

theorem name_exact (apart : tail.head? ≠ some 96) (name : Bytes) :
    readName (quoteMysqlIdentifier name ++ tail) = some (name,tail) := readQuoted_exact apart name

-- A list is read back whole exactly when each of its items is read back.
section Listed
variable {one : Bytes → Option (α × Bytes)} {render : β → Bytes} {value : β → α} {good : β → Prop}

structure Reads (one : Bytes → Option (α × Bytes)) (render : β → Bytes) (value : β → α) (good : β → Prop) : Prop where
  each : ∀ item tail rest, Ends tail → (one (render item ++ tail) = some (value item,rest) ↔ good item ∧ tail = rest)
  inside : ∀ item tail, (render item ++ 41 :: tail).head? ≠ some 41

theorem join_pair (first second : Bytes) (rest : List Bytes) :
    join (first :: second :: rest) = first ++ (44 :: 32 :: join (second :: rest)) := by
  simp [join,ascii]

theorem join_length (texts : List Bytes) : texts.length ≤ (join texts).length + 1 := by
  induction texts with
  | nil => simp
  | cons _ rest ih =>
    cases rest with
    | nil => simp
    | cons =>
      rw [join_pair]
      simp only [List.length_append,List.length_cons] at ih ⊢
      omega

theorem join_single (first : β) (tail : Bytes) : join ([first].map render) ++ 41 :: tail = render first ++ 41 :: tail := by
  simp [join]

theorem join_second (first second : β) (items : List β) (tail : Bytes) :
    join ((first :: second :: items).map render) ++ 41 :: tail =
      render first ++ (44 :: 32 :: (join ((second :: items).map render) ++ 41 :: tail)) := by
  simp [join_pair]

theorem items_first (ran : readItems one fuel input = some (item :: items,rest)) :
    ∃ after, one input = some (item,after) := by
  cases fuel with
  | zero => cases ran
  | succ =>
    obtain ⟨⟨_,after⟩,step,next⟩ := Option.bind_eq_some_iff.mp ran
    refine ⟨after,step.trans ?_⟩
    dsimp only at next
    split at next
    · cases next
      rfl
    · obtain ⟨_,_,same⟩ := Option.bind_eq_some_iff.mp next
      cases same
      rfl
    · cases next

theorem items_exact (reads : Reads one render value good) (first : β) (items : List β) (fuel : Nat) (tail rest : Bytes)
    (enough : items.length < fuel) : readItems one fuel (join ((first :: items).map render) ++ 41 :: tail) =
      some ((first :: items).map value,rest) ↔ (∀ item ∈ first :: items, good item) ∧ tail = rest := by
  obtain ⟨fuel,rfl⟩ := Nat.exists_eq_succ_of_ne_zero (Nat.ne_zero_of_lt enough)
  induction items generalizing first fuel with
  | nil =>
    rw [join_single,List.forall_mem_singleton]
    constructor
    · intro ran
      obtain ⟨_,step⟩ := items_first ran
      obtain ⟨sound,rfl⟩ := (reads.each _ _ _ (.inr rfl)).mp step
      rw [readItems,step] at ran
      cases ran
      exact ⟨sound,rfl⟩
    · rintro ⟨sound,rfl⟩
      rw [readItems,(reads.each _ _ _ (.inr rfl)).mpr ⟨sound,rfl⟩]
      rfl
  | cons second items ih =>
    obtain ⟨fuel,rfl⟩ := Nat.exists_eq_succ_of_ne_zero (Nat.ne_zero_of_lt (Nat.lt_of_succ_lt_succ enough))
    have later := ih second fuel (Nat.lt_of_succ_lt_succ enough)
    have whole (sound : good first) : readItems one (fuel + 1 + 1) (render first ++ (44 :: 32 ::
        (join ((second :: items).map render) ++ 41 :: tail))) =
          (readItems one (fuel + 1) (join ((second :: items).map render) ++ 41 :: tail)).bind fun read =>
            some (value first :: read.1,read.2) := by
      rw [readItems,(reads.each _ _ _ (.inl rfl)).mpr ⟨sound,rfl⟩]
      rfl
    rw [join_second,List.forall_mem_cons,and_assoc,← later]
    constructor
    · intro ran
      obtain ⟨_,step⟩ := items_first ran
      obtain ⟨sound,_⟩ := (reads.each _ _ _ (.inl rfl)).mp step
      rw [whole sound] at ran
      obtain ⟨⟨_,_⟩,read,same⟩ := Option.bind_eq_some_iff.mp ran
      cases same
      exact ⟨sound,read⟩
    · rintro ⟨sound,read⟩
      rw [whole sound,read]
      rfl

theorem list_items (reads : Reads one render value good) (first : β) (items : List β) (tail : Bytes) :
    ∃ fuel, items.length < fuel ∧ readList one (join ((first :: items).map render) ++ 41 :: tail) =
      readItems one fuel (join ((first :: items).map render) ++ 41 :: tail) := by
  refine ⟨(join ((first :: items).map render) ++ 41 :: tail).length,?_,?_⟩
  · have bound := join_length ((first :: items).map render)
    simp only [List.length_map,List.length_cons,List.length_append] at bound ⊢
    omega
  · rw [readList]
    intro rest same
    have head : (join ((first :: items).map render) ++ 41 :: tail).head? ≠ some 41 := by
      cases items with
      | nil => simpa [join] using reads.inside first tail
      | cons =>
        have inside := reads.inside first
        cases shape : render first with
        | nil =>
          have wrong := inside []
          simp [shape] at wrong
        | cons =>
          have wrong := inside []
          simpa [shape,join_pair] using wrong
    rw [same] at head
    exact head rfl

theorem list_exact (reads : Reads one render value good) (items : List β) (tail rest : Bytes) :
    readList one (join (items.map render) ++ 41 :: tail) = some (items.map value,rest) ↔
      (∀ item ∈ items, good item) ∧ tail = rest := by
  cases items with
  | nil => simp [join,readList]
  | cons first items =>
    obtain ⟨fuel,enough,same⟩ := list_items reads first items tail
    rw [same,items_exact reads first items fuel tail rest enough]

end Listed

theorem names_read : Reads readName quoteMysqlIdentifier id fun _ => True where
  each := by
    intro name tail rest ends
    have apart : tail.head? ≠ some 96 := by
      rcases ends with comma | paren
      · rw [comma]; decide
      · rw [paren]; decide
    rw [name_exact apart name]
    simp
  inside := by
    intro name tail same
    cases same

theorem tokens_read : Reads readToken cellText Cell.evaluated Plain where
  each := fun cell _ rest ends => token_exact ends cell rest
  inside := by
    intro cell tail same
    cases cell with
    | none => cases same
    | some value =>
      cases bare : special value with
      | true =>
        obtain ⟨_,_,shape,_,unclosed⟩ := special_first bare
        have text : cellText (some value) = value := by simp [cellText,mysqlQuoteValue,bare]
        rw [text,shape] at same
        exact unclosed (Option.some.inj same)
      | false =>
        rw [cellText,mysqlQuoteValue,bare] at same
        cases same

theorem dropPrefix_exact (text rest : Bytes) : (text ++ rest).dropPrefix? text = some rest :=
  List.dropPrefix?_eq_some_iff.mpr ⟨text,rfl,beq_self_eq_true text⟩

section Statements
variable (table : MysqlTable) (columns : List Bytes)

-- What a row was.
def recorded (row : List Cell) : Insert := ⟨table,columns,(cells columns row).map Cell.evaluated⟩

theorem readInsert_values (row : List Cell) (tail : Bytes) : readInsert (insertStatement table columns row ++ tail) =
      (readList readToken (join ((cells columns row).map cellText) ++ 41 :: (ascii ";\n" ++ tail))).bind fun read =>
        (read.2.dropPrefix? (ascii ";\n")).map fun rest => (⟨table,columns,read.1⟩,rest) := by
  have text : insertStatement table columns row ++ tail =
      ascii "INSERT INTO " ++ (quoteMysqlIdentifier table.schema ++ (ascii "." ++ (quoteMysqlIdentifier table.name ++
        (ascii " (" ++ (join (columns.map quoteMysqlIdentifier) ++ 41 :: (ascii " VALUES (" ++
          (join ((cells columns row).map cellText) ++ 41 :: (ascii ";\n" ++ tail)))))))) := by
    simp [insertStatement,ascii]
  have named := (list_exact names_read columns (ascii " VALUES (" ++
    (join ((cells columns row).map cellText) ++ 41 :: (ascii ";\n" ++ tail))) _).mpr ⟨fun _ _ => trivial,rfl⟩
  rw [text]
  unfold readInsert
  simp only [dropPrefix_exact,Option.bind_eq_bind,Option.bind_some]
  rw [name_exact (by simp [ascii])]
  simp only [dropPrefix_exact,Option.bind_some]
  rw [name_exact (by simp [ascii])]
  simp only [dropPrefix_exact,Option.bind_some]
  rw [named]
  simp only [dropPrefix_exact,Option.bind_some,List.map_id]
  cases readList readToken (join ((cells columns row).map cellText) ++ 41 :: (ascii ";\n" ++ tail)) with
  | none => rfl
  | some read =>
    obtain ⟨_,rest⟩ := read
    simp only [Option.bind_some]
    cases rest.dropPrefix? (ascii ";\n") <;> rfl

theorem readInsert_exact (row : List Cell) (tail rest : Bytes) :
    readInsert (insertStatement table columns row ++ tail) = some (recorded table columns row,rest) ↔
      (∀ cell ∈ cells columns row, Plain cell) ∧ tail = rest := by
  rw [readInsert_values]
  constructor
  · intro ran
    obtain ⟨⟨values,_⟩,read,next⟩ := Option.bind_eq_some_iff.mp ran
    obtain ⟨_,dropped,same⟩ := Option.map_eq_some_iff.mp next
    obtain ⟨insert,rfl⟩ := Prod.mk.inj same
    obtain rfl : values = (cells columns row).map Cell.evaluated := congrArg Insert.values insert
    obtain ⟨plain,rfl⟩ := (list_exact tokens_read _ _ _).mp read
    rw [dropPrefix_exact] at dropped
    exact ⟨plain,Option.some.inj dropped⟩
  · rintro ⟨plain,rfl⟩
    rw [(list_exact tokens_read _ _ _).mpr ⟨plain,rfl⟩]
    simp [dropPrefix_exact,recorded]

theorem readInserts_exact (rows : List (List Cell)) (fuel : Nat) (enough : rows.length ≤ fuel) :
    readInserts fuel (writeMySQLTableData table columns rows) = some (rows.map (recorded table columns)) ↔
      ∀ row ∈ rows, ∀ cell ∈ cells columns row, Plain cell := by
  induction rows generalizing fuel with
  | nil => simp [writeMySQLTableData,readInserts]
  | cons row rows ih =>
    obtain ⟨fuel,rfl⟩ := Nat.exists_eq_succ_of_ne_zero (Nat.ne_zero_of_lt (Nat.lt_of_lt_of_le (Nat.succ_pos _) enough))
    have later := ih fuel (Nat.le_of_succ_le_succ enough)
    have text : writeMySQLTableData table columns (row :: rows) =
        insertStatement table columns row ++ writeMySQLTableData table columns rows := rfl
    have step : readInserts (fuel+1) (writeMySQLTableData table columns (row :: rows)) =
        (readInsert (insertStatement table columns row ++ writeMySQLTableData table columns rows)).bind fun read =>
          (readInserts fuel read.2).bind fun inserts => some (read.1 :: inserts) := by
      rfl
    rw [step,List.forall_mem_cons,← later]
    constructor
    · intro ran
      obtain ⟨⟨_,_⟩,read,next⟩ := Option.bind_eq_some_iff.mp ran
      obtain ⟨_,others,same⟩ := Option.bind_eq_some_iff.mp next
      obtain ⟨rfl,rfl⟩ := List.cons.inj (Option.some.inj same)
      obtain ⟨plain,rfl⟩ := (readInsert_exact table columns row _ _).mp read
      exact ⟨plain,others⟩
    · rintro ⟨plain,others⟩
      rw [(readInsert_exact table columns row _ _).mpr ⟨plain,rfl⟩,Option.bind_some,others]
      rfl

theorem dump_length (rows : List (List Cell)) : rows.length ≤ (writeMySQLTableData table columns rows).length := by
  induction rows with
  | nil => simp
  | cons row _ ih =>
    have filled : 0 < (insertStatement table columns row).length := by simp [insertStatement,ascii]
    simp only [writeMySQLTableData,List.flatMap_cons,List.length_append,List.length_cons] at ih ⊢
    omega

end Statements

-- The server reads each row of a dump back as it was exactly when no cell that
-- is not NULL is one of the values written without quotes and every backslash
-- stands before % or _, the only escapes that keep it.
theorem dump_faithful_exactly_when_plain (table : MysqlTable) (columns : List Bytes) (rows : List (List Cell)) :
    readDump (writeMySQLTableData table columns rows) =
        some (rows.map fun row => ⟨table,columns,(cells columns row).map Cell.evaluated⟩) ↔
      ∀ row ∈ rows, ∀ cell ∈ cells columns row, Plain cell :=
  readInserts_exact table columns rows _ (dump_length table columns rows)

-- A quote, a backtick in the column's name and a LIKE pattern come back.
theorem quoted_pattern_faithful :
    readDump (writeMySQLTableData ⟨ascii "shop",ascii "item"⟩ [[96,97],ascii "b"] [[some [39,92,37,39],none]]) =
      some [⟨⟨ascii "shop",ascii "item"⟩,[[96,97],ascii "b"],[.text [39,92,37,39],.null]⟩] := by
  have plain : ∀ row ∈ [[some [39,92,37,39],none]], ∀ cell ∈ cells [[96,97],ascii "b"] row, Plain cell := by
    intro row member cell found
    obtain rfl := List.mem_singleton.mp member
    have either : cell = some [39,92,37,39] ∨ cell = none := by simpa [cells,List.range_succ] using found
    rcases either with rfl | rfl
    · exact ⟨rfl,rfl⟩
    · trivial
  exact (dump_faithful_exactly_when_plain ⟨ascii "shop",ascii "item"⟩ [[96,97],ascii "b"] _).mpr plain

-- The string NULL comes back as NULL, the string 0x41 as A, a backslash and an
-- n as a line break; a backslash at the end of a cell takes the closing quote
-- with it, and the literal runs into the next cell.
theorem cells_come_back_changed :
    readDump (writeMySQLTableData ⟨[115],[116]⟩ [[99]] [[some (ascii "NULL")]]) = some [⟨⟨[115],[116]⟩,[[99]],[.null]⟩] ∧
    readDump (writeMySQLTableData ⟨[115],[116]⟩ [[99]] [[some (ascii "0x41")]]) =
      some [⟨⟨[115],[116]⟩,[[99]],[.text (ascii "A")]⟩] ∧
    readDump (writeMySQLTableData ⟨[115],[116]⟩ [[99]] [[some [92,110]]]) = some [⟨⟨[115],[116]⟩,[[99]],[.text [10]]⟩] ∧
    readDump (writeMySQLTableData ⟨[115],[116]⟩ [[99]] [[some [92]]]) = none ∧
    readToken (join ([some [92],some (ascii ", NULL")].map cellText)) = some (.text (ascii "', "),ascii ", NULL'") := by
  decide +kernel

end Kronos.MysqlDump
