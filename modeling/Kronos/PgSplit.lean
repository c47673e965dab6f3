import Kronos.PostgresDump

namespace Kronos.PgSplit
open ByteRange Utf8 Strings PostgresDump

def tagByte (b : UInt8) : Bool :=
  b = 95 || (48 ≤ b && b ≤ 57) || (65 ≤ b && b ≤ 90) || (97 ≤ b && b ≤ 122)

-- The name between the dollars of a tag.
structure Tag where
  name : Bytes
  plain : ∀ b ∈ name, tagByte b = true
  deriving DecidableEq

def Tag.text (tag : Tag) : Bytes := 36 :: (tag.name ++ [36])

inductive Mode where
  | plain | lineComment | blockComment | dollar (tag : Tag) | single | double
  deriving DecidableEq

-- On what follows a dollar.
def readPGDollarTag (rest : Bytes) : Option Tag :=
  if (rest.dropWhile tagByte).head? = some 36 then
    some ⟨rest.takeWhile tagByte,fun b member => List.all_eq_true.mp List.all_takeWhile b member⟩
  else none

def quotedStep (mark : UInt8) (mode : Mode) (ch : UInt8) (rest : Bytes) : Nat × Mode :=
  if ch = mark then if rest.head? = some mark then (1,mode) else (0,.plain) else (0,mode)

-- The bytes behind ch that are copied with it, and the mode after them.
def token (mode : Mode) (ch : UInt8) (rest : Bytes) : Nat × Mode :=
  match mode with
  | .lineComment => (0,if ch = 10 then .plain else .lineComment)
  | .blockComment => if ch = 42 ∧ rest.head? = some 47 then (1,.plain) else (0,.blockComment)
  | .dollar tag => if tag.text <+: ch :: rest then (tag.name.length + 1,.plain) else (0,.dollar tag)
  | .single => quotedStep 39 .single ch rest
  | .double => quotedStep 34 .double ch rest
  | .plain =>
    if ch = 45 ∧ rest.head? = some 45 then (1,.lineComment)
    else if ch = 47 ∧ rest.head? = some 42 then (1,.blockComment)
    else if ch = 39 then (0,.single)
    else if ch = 34 then (0,.double)
    else if ch = 36 then
      match readPGDollarTag rest with
      | some tag => (tag.name.length + 1,.dollar tag)
      | none => (0,.plain)
    else (0,.plain)

def flush (current : Bytes) : List Bytes := if trimSpace current = [] then [] else [trimSpace current]

-- The loop: its mode, the bytes still to be copied, the statement so far. None
-- is the error of a text that ends in a quote, a block comment or a dollar tag.
def scan : Mode → Nat → Bytes → Bytes → Option (List Bytes)
  | mode,_,current,[] => if mode = .plain ∨ mode = .lineComment then some (flush current) else none
  | mode,skip+1,current,ch :: rest => scan mode skip (current ++ [ch]) rest
  | mode,0,current,ch :: rest =>
    if mode = .plain ∧ ch = 59 then (scan .plain 0 [] rest).map (flush (current ++ [ch]) ++ ·)
    else scan (token mode ch rest).2 (token mode ch rest).1 (current ++ [ch]) rest

def splitPGSQLStatements (sql : Bytes) : Option (List Bytes) := scan .plain 0 [] sql

-- The lexing alone, for texts without a semicolon outside quotes, comments and
-- dollar-quoted bodies.
def lex : Mode → Nat → Bytes → Option (Mode × Nat)
  | mode,skip,[] => some (mode,skip)
  | mode,skip+1,_ :: rest => lex mode skip rest
  | mode,0,ch :: rest =>
    if mode = .plain ∧ ch = 59 then none else lex (token mode ch rest).2 (token mode ch rest).1 rest

def Balanced (text : Bytes) : Prop := lex .plain 0 text = some (.plain,0)

instance (text : Bytes) : Decidable (Balanced text) := inferInstanceAs (Decidable (_ = _))

-- Bytes that begin no token and go on with none.
def separates (c : UInt8) : Bool := !tagByte c && [45,47,42,39,34,36].all (c ≠ ·)

theorem separates_apart (apart : separates c = true) (special : mark ∈ [45,47,42,39,34,36]) : c ≠ mark := by
  rintro rfl
  simp [separates] at apart
  simp [apart] at special

-- What may follow without changing how the text before it is read.
def Clear (more : Bytes) : Prop := more.head?.all separates = true

theorem Clear.head (clear : Clear more) (starts : more.head? = some c) : separates c = true := by
  simpa [Clear,starts] using clear

theorem head_apart (clear : Clear more) (special : mark ∈ [45,47,42,39,34,36]) (rest : Bytes) :
    ((rest ++ more).head? = some mark) = (rest.head? = some mark) := by
  cases rest with
  | nil => simpa using fun same => separates_apart (clear.head same) special rfl
  | cons => rfl

theorem tag_apart (apart : separates c = true) (tag : Tag) : c ∉ tag.text := by
  intro member
  rcases List.mem_cons.mp member with dollar | member
  · exact separates_apart apart (by decide) dollar
  · rcases List.mem_append.mp member with inside | dollar
    · simp [separates,tag.plain c inside] at apart
    · exact separates_apart apart (by decide) (List.mem_singleton.mp dollar)

theorem prefix_apart (clear : Clear more) (tag : Tag) : tag.text <+: text ++ more ↔ tag.text <+: text := by
  refine ⟨fun starts => ?_,fun starts => starts.trans (List.prefix_append ..)⟩
  rcases Nat.le_total tag.text.length text.length with short | long
  · exact List.prefix_of_prefix_length_le starts (List.prefix_append ..) short
  · obtain ⟨rest,whole⟩ := List.prefix_of_prefix_length_le (List.prefix_append ..) starts long
    obtain ⟨_,same⟩ := starts
    rw [← whole,List.append_assoc,List.append_cancel_left_eq] at same
    cases rest with
    | nil => simp [← whole]
    | cons b => exact absurd (by simp [← whole] : b ∈ tag.text) (tag_apart (clear.head (by rw [← same]; rfl)) tag)

theorem dollarTag_apart (clear : Clear more) (rest : Bytes) : readPGDollarTag (rest ++ more) = readPGDollarTag rest := by
  induction rest with
  | nil =>
    cases more with
    | nil => rfl
    | cons c =>
      have apart := clear.head rfl
      have stops : tagByte c = false := by
        simp only [separates,Bool.and_eq_true,Bool.not_eq_true'] at apart
        exact apart.1
      simp [readPGDollarTag,stops,separates_apart apart (by decide : (36 : UInt8) ∈ _)]
  | cons b _ ih =>
    by_cases inside : tagByte b = true
    · simp only [readPGDollarTag,List.cons_append,List.dropWhile_cons_of_pos inside,List.takeWhile_cons_of_pos inside] at ih ⊢
      split <;> split at ih <;> simp_all
    · simp [readPGDollarTag,inside]

theorem token_apart (clear : Clear more) (mode : Mode) (ch : UInt8) (rest : Bytes) :
    token mode ch (rest ++ more) = token mode ch rest := by
  cases mode with
  | lineComment => rfl
  | blockComment => simp only [token,head_apart clear (by decide : (47 : UInt8) ∈ _)]
  | dollar tag => simp only [token,← List.cons_append,prefix_apart clear tag]
  | single | double => simp only [token,quotedStep,head_apart clear (by decide : (39 : UInt8) ∈ _),
      head_apart clear (by decide : (34 : UInt8) ∈ _)]
  | plain => simp only [token,head_apart clear (by decide : (45 : UInt8) ∈ _),
      head_apart clear (by decide : (42 : UInt8) ∈ _),dollarTag_apart clear]

theorem lex_append (clear : Clear more) (mode : Mode) (skip : Nat) (text : Bytes) :
    lex mode skip (text ++ more) = (lex mode skip text).bind fun ends => lex ends.1 ends.2 more := by
  induction text generalizing mode skip with
  | nil => rfl
  | cons _ _ ih =>
    cases skip with
    | succ skip => exact ih mode skip
    | zero =>
      simp only [lex,List.cons_append,token_apart clear]
      split
      · rfl
      · exact ih _ _

theorem lex_scan (clear : Clear more) (read : lex mode skip text = some (ends,left)) :
    scan mode skip current (text ++ more) = scan ends left (current ++ text) more := by
  induction text generalizing mode skip current with
  | nil =>
    obtain ⟨rfl,rfl⟩ := Prod.mk.inj (Option.some.inj read)
    rw [List.append_nil,List.nil_append]
  | cons ch text ih =>
    have moved : current ++ ch :: text = current ++ [ch] ++ text := by simp
    cases skip with
    | succ => rw [moved]; exact ih read
    | zero =>
      simp only [lex,scan,List.cons_append,token_apart clear] at read ⊢
      split at read
      · cases read
      · rename_i inside
        rw [if_neg inside,moved]
        exact ih read

theorem lex_separator (apart : separates c = true) (inside : c ≠ 59) (text : Bytes) :
    lex .plain 0 (c :: text) = lex .plain 0 text := by
  have other : ∀ mark ∈ ([45,47,42,39,34,36] : Bytes), c ≠ mark := fun mark => separates_apart apart
  simp [lex,token,inside,other]

theorem Balanced.meets (first : Balanced a) (second : Balanced b) (clear : Clear b) : Balanced (a ++ b) := by
  rw [Balanced,lex_append clear,first]
  exact second

-- A text that ends in a separator, whatever comes after it.
def closes (word : Bytes) : Bool :=
  (word.getLast?.any fun c => separates c && c != 59) && decide (Balanced word.dropLast)

theorem Balanced.after (closed : closes word = true) (balanced : Balanced text) : Balanced (word ++ text) := by
  obtain ⟨last,first⟩ := Bool.and_eq_true_iff.mp closed
  obtain ⟨c,same,apart⟩ := (Option.any_eq_true _ _).mp last
  obtain ⟨apart,inside⟩ := Bool.and_eq_true_iff.mp apart
  rw [← List.dropLast_append_getLast? c same,List.append_assoc]
  have before : Balanced word.dropLast := of_decide_eq_true first
  have clear : Clear (c :: text) := apart
  rw [Balanced,List.singleton_append,lex_append clear,before]
  exact (lex_separator apart (bne_iff_ne.mp inside) _).trans balanced

theorem lex_quoted (mode : Mode) (mark : UInt8) (quoted : mode ≠ .plain)
    (step : ∀ ch rest, token mode ch rest = quotedStep mark mode ch rest) (value : Bytes) :
    lex mode 0 (doubled mark value ++ [mark]) = some (.plain,0) := by
  induction value with
  | nil => simp [lex,doubled,step,quotedStep,quoted]
  | cons b _ ih =>
    by_cases same : b = mark <;> simpa [lex,doubled,step,quotedStep,quoted,same] using ih

theorem identifier_balanced (name : Bytes) : Balanced (quotePGIdentifier name) :=
  lex_quoted .double 34 (by decide) (fun _ _ => rfl) name

theorem literal_balanced (value : Bytes) : Balanced (quotePGLiteral value) :=
  lex_quoted .single 39 (by decide) (fun _ _ => rfl) value

theorem pieces_ascii (small : b < 0x80) (rest : Bytes) : pieces (b :: rest) = .rune [b] :: pieces rest :=
  pieces_rune (decodeRune_rune (.one small) rest)

-- White space only.
def Gap (text : Bytes) : Prop := ∃ spaces : List Piece, (∀ piece ∈ spaces, spacePiece piece = true) ∧ text = spaces.flatMap Piece.bytes

theorem space_separates (space : spacePiece piece = true) (member : b ∈ piece.bytes) :
    separates b = true ∧ b ≠ 59 := by
  have outside : 128 ≤ b.toNat ∨ b.toNat = 32 ∨ 9 ≤ b.toNat ∧ b.toNat ≤ 13 := by
    cases piece with
    | bad => cases space
    | rune text =>
      rw [spacePiece] at space
      fun_cases spaceRune text <;>
        simp_all [spaceRune,Piece.bytes,UInt8.le_iff_toNat_le,← UInt8.toNat_inj] <;> omega
  simp only [separates,tagByte,ne_eq,List.all_cons,UInt8.le_iff_toNat_le,← UInt8.toNat_inj]
  simp
  omega

theorem Gap.bytes (gap : Gap text) : ∀ b ∈ text, separates b = true ∧ b ≠ 59 := by
  obtain ⟨spaces,blank,rfl⟩ := gap
  intro b member
  obtain ⟨piece,inside,member⟩ := List.mem_flatMap.mp member
  exact space_separates (blank piece inside) member

theorem trim_parts (text : Bytes) : ∃ before after, Gap before ∧ Gap after ∧ text = before ++ (trimSpace text ++ after) := by
  have front := List.takeWhile_append_dropWhile (p := spacePiece) (l := pieces text)
  have back := List.takeWhile_append_dropWhile (p := spacePiece) (l := ((pieces text).dropWhile spacePiece).reverse)
  refine ⟨_,_,⟨(pieces text).takeWhile spacePiece,List.all_eq_true.mp List.all_takeWhile,rfl⟩,
    ⟨(((pieces text).dropWhile spacePiece).reverse.takeWhile spacePiece).reverse,fun piece member =>
      List.all_eq_true.mp List.all_takeWhile piece (List.mem_reverse.mp member),rfl⟩,?_⟩
  rw [trimSpace,← List.flatMap_append,← List.reverse_append,back,List.reverse_reverse,← List.flatMap_append,front]
  exact (pieces_bytes text).symm

theorem trim_statement (solid : separates c = false) (starts : body ++ [59] = c :: rest) :
    trimSpace (body ++ [59]) = body ++ [59] := by
  obtain ⟨before,after,gap,last,split⟩ := trim_parts (body ++ [59])
  obtain rfl : before = [] := by
    cases before with
    | nil => rfl
    | cons b before =>
      obtain rfl : c = b := (List.cons.inj (starts.symm.trans split)).1
      cases solid.symm.trans (gap.bytes c List.mem_cons_self).1
  obtain rfl : after = [] := by
    rcases List.eq_nil_or_concat after with empty | ⟨front,b,rfl⟩
    · exact empty
    · rw [List.concat_eq_append,List.nil_append,← List.append_assoc] at split
      have same := List.singleton_inj.mp (List.append_inj' split rfl).2
      exact absurd same.symm (last.bytes b (by simp)).2
  simpa using split.symm

theorem flush_newline (current : Bytes) : flush (10 :: current) = flush current := by
  have trimmed : trimSpace (10 :: current) = trimSpace current := by
    rw [trimSpace,pieces_ascii (by decide),List.dropWhile_cons_of_pos rfl,trimSpace]
  rw [flush,trimmed,flush]

theorem scan_indented : scan mode skip (10 :: current) text = scan mode skip current text := by
  induction text generalizing mode skip current with
  | nil => simp only [scan,flush_newline]
  | cons _ _ ih =>
    cases skip with
    | succ => exact ih
    | zero =>
      simp only [scan,List.cons_append,flush_newline]
      rw [ih]

theorem scan_newline (text : Bytes) : scan .plain 0 [] (10 :: text) = scan .plain 0 [] text := scan_indented

theorem scan_statement (balanced : Balanced body) (solid : separates c = false)
    (starts : body ++ [59] = c :: rest) (more : Bytes) :
    scan .plain 0 [] (body ++ 59 :: more) = (scan .plain 0 [] more).map ([body ++ [59]] ++ ·) := by
  have trimmed := trim_statement solid starts
  rw [lex_scan (rfl : Clear (59 :: more)) balanced,List.nil_append,scan,if_pos ⟨rfl,rfl⟩,flush,trimmed,if_neg (by simp)]

-- What stands in a statement: given text, a quoted name, or a value, which is NULL
-- or a literal.
inductive Slot where
  | text (bytes : Bytes) | name | value

def readBack : List Slot → Bytes → Option (List (Option Bytes))
  | [],input => if input = [] then some [] else none
  | .text bytes :: slots,input => if bytes <+: input then readBack slots (input.drop bytes.length) else none
  | .name :: slots,input => (readQuoted 34 input).bind fun read => (readBack slots read.2).map (some read.1 :: ·)
  | .value :: slots,input =>
    if ascii "NULL" <+: input then (readBack slots (input.drop 4)).map (none :: ·)
    else (readQuoted 39 input).bind fun read => (readBack slots read.2).map (some read.1 :: ·)

theorem readBack_text (bytes rest : Bytes) (slots : List Slot) :
    readBack (.text bytes :: slots) (bytes ++ rest) = readBack slots rest := by
  rw [readBack,if_pos (List.prefix_append ..),List.drop_left]

-- What may follow a quoted text without going on with it.
def Unquoted (rest : Bytes) : Prop := rest.head? ≠ some 34 ∧ rest.head? ≠ some 39

theorem readBack_name (free : Unquoted rest) (name : Bytes) (slots : List Slot) :
    readBack (.name :: slots) (quotePGIdentifier name ++ rest) = (readBack slots rest).map (some name :: ·) := by
  rw [readBack,quotePGIdentifier,readQuoted_exact free.1]
  rfl

theorem readBack_value (free : Unquoted rest) (value : Option Bytes) (slots : List Slot) :
    readBack (.value :: slots) (rowValue value ++ rest) = (readBack slots rest).map (value :: ·) := by
  cases value with
  | none =>
    rw [readBack,rowValue,if_pos (List.prefix_append ..)]
    rfl
  | some value =>
    have quoted : ¬ ascii "NULL" <+: quotePGLiteral value ++ rest := by
      rintro ⟨_,same⟩
      cases same
    rw [readBack,rowValue,if_neg quoted,quotePGLiteral,readQuoted_exact free.2]
    rfl

-- Text that is read as it stands and gives back what was quoted into it.
structure Written (slots : List Slot) (text : Bytes) (held : List (Option Bytes)) : Prop where
  balanced : Balanced text
  read : ∀ later rest, Unquoted rest → readBack (slots ++ later) (text ++ rest) = (readBack later rest).map (held ++ ·)

theorem Written.nil : Written [] [] [] := ⟨rfl,by simp⟩

theorem Written.given (balanced : Balanced bytes) : Written [.text bytes] bytes [] :=
  ⟨balanced,fun later rest _ => (readBack_text bytes rest later).trans (by simp)⟩

theorem Written.name (name : Bytes) : Written [.name] (quotePGIdentifier name) [some name] :=
  ⟨identifier_balanced name,fun later _ free => readBack_name free name later⟩

theorem Written.value (value : Option Bytes) : Written [.value] (rowValue value) [value] := by
  refine ⟨?_,fun later _ free => readBack_value free value later⟩
  cases value
  · decide
  · exact literal_balanced _

theorem Written.meets (first : Written slots text held) (second : Written others more kept) (clear : Clear more) :
    Written (slots ++ others) (text ++ more) (held ++ kept) := by
  refine ⟨first.balanced.meets second.balanced clear,fun later rest free => ?_⟩
  have apart : Unquoted (more ++ rest) := by
    rw [Unquoted,List.head?_append]
    cases starts : more.head? with
    | none => exact free
    | some c =>
      have other := fun {mark} => @separates_apart c mark (clear.head starts)
      exact ⟨fun same => other (by decide) (Option.some.inj same),fun same => other (by decide) (Option.some.inj same)⟩
  rw [List.append_assoc,List.append_assoc,first.read _ _ apart,second.read _ _ free,Option.map_map]
  simp only [Function.comp_def,List.append_assoc]

theorem Written.after (closed : closes word = true) (written : Written slots text held) :
    Written (.text word :: slots) (word ++ text) held := by
  refine ⟨.after closed written.balanced,fun later rest free => ?_⟩
  rw [List.cons_append,List.append_assoc,readBack_text]
  exact written.read later rest free

theorem Written.intercalate (b : UInt8) (closed : closes [44,b] = true) {items : List α} {place : α → List Slot}
    {write : α → Bytes} {held : α → Option Bytes} (each : ∀ item ∈ items, Written (place item) (write item) [held item]) :
    Written ([.text [44,b]].intercalate (items.map place)) ([44,b].intercalate (items.map write)) (items.map held) := by
  induction items with
  | nil => exact .nil
  | cons item items ih =>
    obtain ⟨first,others⟩ := List.forall_mem_cons.mp each
    cases items with
    | nil => simpa [List.intercalate] using first
    | cons =>
      simp only [List.map_cons,List.intercalate_cons_cons,List.append_assoc] at ih ⊢
      exact first.meets (.after closed (ih others)) rfl

-- A statement on a line of its own.
def Line (slots : List Slot) (held : List (Option Bytes)) (text : Bytes) : Prop := ∃ c word body,
  text = c :: word ++ (body ++ [59,10]) ∧ separates c = false ∧ Written slots (c :: word ++ body) held

theorem scan_line (line : Line slots held text) (more : Bytes) :
    scan .plain 0 [] (text ++ more) = (scan .plain 0 [] more).map ([text.dropLast] ++ ·) := by
  obtain ⟨_,_,_,rfl,solid,written⟩ := line
  have read := scan_statement written.balanced solid rfl (10 :: more)
  rw [scan_newline] at read
  rw [← List.append_assoc,List.append_assoc,List.dropLast_append_of_ne_nil (by simp)]
  exact read

def readStatement (slots : List Slot) (text : Bytes) : Option (List (Option Bytes)) :=
  readBack (slots ++ [.text (ascii ";")]) text

theorem Line.read (line : Line slots held text) : readStatement slots text.dropLast = some held := by
  obtain ⟨_,_,_,rfl,_,written⟩ := line
  rw [readStatement,← List.append_assoc,List.dropLast_append_of_ne_nil (by simp)]
  have ends : readBack [.text (ascii ";")] [59,10].dropLast = some [] := by decide
  refine (written.read _ _ ⟨by decide,by decide⟩).trans ?_
  rw [ends,Option.map_some,List.append_nil]

def schemaSlots : List Slot := [.text (ascii "CREATE SCHEMA IF NOT EXISTS "),.name]

theorem schema_line (schema : Bytes) : Line schemaSlots [some schema] (createSchema schema) :=
  ⟨67,ascii "REATE SCHEMA IF NOT EXISTS ",quotePGIdentifier schema,List.append_assoc ..,by decide,
    .after (by decide) (.name schema)⟩

def qualifiedSlots : List Slot := [.name,.text (ascii "."),.name]

theorem qualified_written (schema name : Bytes) :
    Written qualifiedSlots (quotePGQualifiedName schema name) [some schema,some name] := by
  rw [quotePGQualifiedName,List.append_assoc]
  exact (Written.name schema).meets (.after (by decide) (.name name)) rfl

def schemaStatements (schema : Bytes) : List Bytes :=
  if schema ≠ ascii "public" then [ascii "CREATE SCHEMA IF NOT EXISTS " ++ quotePGIdentifier schema ++ [59]] else []

theorem schema_statement (schema : Bytes) :
    (createSchema schema).dropLast = ascii "CREATE SCHEMA IF NOT EXISTS " ++ quotePGIdentifier schema ++ [59] :=
  List.dropLast_append_of_ne_nil (by decide)

theorem scan_schema (schema text : Bytes) :
    scan .plain 0 [] ((if schema ≠ ascii "public" then createSchema schema else []) ++ text) =
      (scan .plain 0 [] text).map (schemaStatements schema ++ ·) := by
  rw [schemaStatements,← schema_statement]
  split
  · exact scan_line (schema_line schema) text
  · simp

-- The text of a view up to its end, without a semicolon.
def viewHead (view : PgNativeView) (query : Bytes) : Bytes :=
  (if view.materialized then ascii "CREATE MATERIALIZED VIEW " else ascii "CREATE VIEW ") ++
    (quotePGQualifiedName view.schema view.name ++ (ascii " AS\n" ++ query))

def viewStatement (view : PgNativeView) (query : Bytes) : Bytes :=
  viewHead view query ++ if view.materialized then ascii "\nWITH NO DATA;" else [59]

section
variable (view : PgNativeView)

theorem viewHead_balanced (balanced : Balanced query) : Balanced (viewHead view query) := by
  have named : Balanced (quotePGQualifiedName view.schema view.name ++ (ascii " AS\n" ++ query)) :=
    (qualified_written _ _).balanced.meets (.after (by decide) balanced) rfl
  rw [viewHead]
  split
  · exact .after (by decide) named
  · exact .after (by decide) named

theorem scan_view (balanced : Balanced query) (more : Bytes) :
    scan .plain 0 [] (viewHead view query ++ 59 :: more) = (scan .plain 0 [] more).map ([viewHead view query ++ [59]] ++ ·) := by
  have starts : ∃ rest, viewHead view query ++ [59] = 67 :: rest := by
    rw [viewHead]
    split
    · exact ⟨_,rfl⟩
    · exact ⟨_,rfl⟩
  obtain ⟨_,starts⟩ := starts
  exact scan_statement (viewHead_balanced view balanced) (by decide) starts more

-- What the writer puts behind the text of the catalog.
def viewTail (view : PgNativeView) : Bytes := if view.materialized then ascii "\nWITH NO DATA;\n\n" else ascii ";\n\n"

theorem viewHead_append (query more : Bytes) : viewHead view (query ++ more) = viewHead view query ++ more := by
  simp only [viewHead,List.append_assoc]

theorem view_written : writeNativeViewDefinition view =
    (if view.schema ≠ ascii "public" then createSchema view.schema else []) ++
      (viewHead view (trimSpace view.definition) ++ viewTail view) := by
  unfold writeNativeViewDefinition viewHead viewTail
  split <;> split <;> simp only [List.append_assoc]

theorem scan_view_open (balanced : Balanced query) :
    scan .plain 0 [] (viewHead view query ++ viewTail view) = some [viewStatement view query] := by
  rw [viewTail,viewStatement]
  split
  · have whole : Balanced (query ++ ascii "\nWITH NO DATA") := balanced.meets (by decide) rfl
    have read := scan_view view whole [10,10]
    rw [viewHead_append,List.append_assoc,List.append_assoc] at read
    exact read
  · exact scan_view view balanced [10,10]

-- With the semicolon of the catalog the view ends before the tail, which is
-- then a statement of its own.
theorem scan_view_ended (balanced : Balanced query) :
    scan .plain 0 [] (viewHead view (query ++ [59]) ++ viewTail view) =
      some [viewHead view query ++ [59],if view.materialized then ascii "WITH NO DATA;" else [59]] := by
  rw [viewHead_append,List.append_assoc,List.singleton_append,scan_view view balanced,viewTail]
  split
  · rfl
  · rfl

end

theorem view_whole_iff (view : PgNativeView) (query : Bytes) (ended : Bool) (balanced : Balanced query)
    (text : trimSpace view.definition = query ++ if ended then [59] else []) :
    splitPGSQLStatements (writeNativeViewDefinition view) =
      some (schemaStatements view.schema ++ [viewStatement view query]) ↔ ended = false := by
  rw [splitPGSQLStatements,view_written,scan_schema,text]
  cases ended with
  | false => simp [scan_view_open view balanced]
  | true => simp [scan_view_ended view balanced]

def plainView (definition : Bytes) : PgNativeView := ⟨ascii "public",ascii "v",definition,false⟩

theorem unended_view_whole : splitPGSQLStatements (writeNativeViewDefinition (plainView (ascii "SELECT 1"))) =
    some [ascii "CREATE VIEW \"public\".\"v\" AS\nSELECT 1;"] :=
  (view_whole_iff (plainView (ascii "SELECT 1")) (ascii "SELECT 1") false (by decide) rfl).mpr rfl

theorem ended_view_broken : splitPGSQLStatements (writeNativeViewDefinition (plainView (ascii "SELECT 1;"))) =
    some [ascii "CREATE VIEW \"public\".\"v\" AS\nSELECT 1;",ascii ";"] := by
  have trimmed : trimSpace (plainView (ascii "SELECT 1;")).definition = ascii "SELECT 1" ++ [59] := by decide
  have balanced : Balanced (ascii "SELECT 1") := by decide
  rw [splitPGSQLStatements,view_written,scan_schema,trimmed,scan_view_ended _ balanced]
  rfl

inductive Alternates : List Bytes → Bytes → Prop where
  | gap : Gap text → Alternates [] text
  | statement : Gap text → Alternates rest more → Alternates (statement :: rest) (text ++ (statement ++ more))

theorem Gap.append (first : Gap a) (second : Gap b) : Gap (a ++ b) := by
  obtain ⟨left,spaces,rfl⟩ := first
  obtain ⟨right,others,rfl⟩ := second
  refine ⟨left ++ right,fun piece member => ?_,List.flatMap_append.symm⟩
  exact (List.mem_append.mp member).elim (spaces piece) (others piece)

theorem Alternates.after (gap : Gap text) (alternates : Alternates statements more) : Alternates statements (text ++ more) := by
  cases alternates with
  | gap later => exact .gap (gap.append later)
  | statement later rest =>
    rw [← List.append_assoc]
    exact .statement (gap.append later) rest

theorem Alternates.join (first : Alternates statements text) (second : Alternates others more) :
    Alternates (statements ++ others) (text ++ more) := by
  induction first with
  | gap only => exact second.after only
  | statement gap _ ih =>
    rw [List.append_assoc,List.append_assoc]
    exact .statement gap ih

-- A semicolon is outside quotes, comments and bodies where what is before it is
-- balanced; the first such semicolon, and so each, is at the end.
def Ends (text : Bytes) : Prop := ∀ front back, text = front ++ 59 :: back → Balanced front → back = []

-- The types and defaults are taken as they are.
def columnSlots (column : PgNativeColumn) : List Slot :=
  [.text (ascii "  "),.name,.text (ascii " " ++ (column.type ++
    ((if column.default.getD [] = [] then [] else ascii " DEFAULT " ++ column.default.getD []) ++
      if column.notNull then ascii " NOT NULL" else [])))]

theorem column_written (type : Balanced column.type) (default : Balanced (column.default.getD [])) :
    Written (columnSlots column) (columnDefinition column) [some column.name] := by
  have last : Balanced (if column.notNull then ascii " NOT NULL" else []) ∧
      Clear (if column.notNull then ascii " NOT NULL" else []) := by
    cases column.notNull <;> exact ⟨by decide,rfl⟩
  simp only [columnDefinition,List.append_assoc]
  refine .after (by decide) ((Written.name _).meets (.given (.after (by decide) ?_)) rfl)
  split
  · exact type.meets last.1 last.2
  · rw [List.append_assoc]
    exact type.meets (.after (by decide) (default.meets last.1 last.2)) rfl

-- The CREATE TABLE of writeNativeTableDefinition.
def tableText (table : PgNativeTable) (columns : List PgNativeColumn) : Bytes :=
  ascii "CREATE TABLE " ++ quotePGQualifiedName table.schema table.name ++ ascii " (" ++
    (if columns = [] then [] else ascii "\n" ++ (ascii ",\n").intercalate (columns.map columnDefinition) ++ ascii "\n") ++
    ascii ");\n"

def tableSlots (columns : List PgNativeColumn) : List Slot :=
  .text (ascii "CREATE TABLE ") :: (qualifiedSlots ++ .text (ascii " (") ::
    ((if columns = [] then [] else .text (ascii "\n") ::
      ([.text (ascii ",\n")].intercalate (columns.map columnSlots) ++ [.text (ascii "\n")])) ++ [.text (ascii ")")]))

def rowSlots (width : Nat) : List Slot :=
  .text (ascii "INSERT INTO ") :: (qualifiedSlots ++
    if width = 0 then [.text (ascii " DEFAULT VALUES")]
    else .text (ascii " (") :: ([.text (ascii ", ")].intercalate (List.replicate width [.name]) ++
      .text (ascii ") VALUES (") :: ([.text (ascii ", ")].intercalate (List.replicate width [.value]) ++ [.text (ascii ")")])))

def named (table : PgNativeTable) (columns : List PgNativeColumn) : List (Option Bytes) :=
  some table.schema :: some table.name :: columns.map (fun column => some column.name)

section
variable (table : PgNativeTable) (columns : List PgNativeColumn)

theorem table_line (own : ∀ column ∈ columns, Balanced column.type ∧ Balanced (column.default.getD [])) :
    Line (tableSlots columns) (named table columns) (tableText table columns) := by
  have each : Written ([.text (ascii ",\n")].intercalate (columns.map columnSlots))
      ((ascii ",\n").intercalate (columns.map columnDefinition)) (columns.map fun column => some column.name) :=
    .intercalate 10 (by decide) fun column listed => column_written (own column listed).1 (own column listed).2
  have inside : Written (if columns = [] then [] else .text (ascii "\n") ::
      ([.text (ascii ",\n")].intercalate (columns.map columnSlots) ++ [.text (ascii "\n")]))
      (if columns = [] then [] else ascii "\n" ++ ((ascii ",\n").intercalate (columns.map columnDefinition) ++ ascii "\n"))
      (columns.map fun column => some column.name) := by
    split
    · rename_i empty
      rw [empty]
      exact .nil
    · have ended := each.meets (.given (by decide : Balanced (ascii "\n"))) rfl
      rw [List.append_nil] at ended
      exact .after (by decide) ended
  have closed := inside.meets (.given (by decide : Balanced (ascii ")"))) rfl
  rw [List.append_nil] at closed
  refine ⟨67,ascii "REATE TABLE ",_,?_,by decide,.after (by decide) ((qualified_written table.schema table.name).meets
    (.after (by decide : closes (ascii " (") = true) closed) rfl)⟩
  simp only [tableText,List.append_assoc]
  rfl

theorem cells_padded (width : Nat) (row : List (Option Bytes)) :
    (List.range width).map (fun i => (row[i]?).getD none) = row.takeD width none := by
  induction width generalizing row with
  | zero => rfl
  | succ width ih =>
    rw [List.range_succ_eq_map,List.map_cons,List.map_map,List.takeD_succ,← ih]
    cases row <;> simp [Function.comp_def]

theorem row_line (row : List (Option Bytes)) : Line (rowSlots columns.length)
    (named table columns ++ row.takeD columns.length none) (insertRow table columns row) := by
  have named := qualified_written table.schema table.name
  have names : Written _ _ (columns.map fun column => some column.name) :=
    .intercalate 32 (by decide) fun column _ => Written.name column.name
  have cells : Written _ _ ((List.range columns.length).map fun i => (row[i]?).getD none) :=
    .intercalate 32 (by decide) fun i _ => Written.value ((row[i]?).getD none)
  rw [List.map_const'] at names
  rw [List.map_const',List.length_range,cells_padded] at cells
  rw [insertRow,rowSlots]
  split
  · rename_i empty
    obtain rfl := List.length_eq_zero_iff.mp empty
    refine ⟨73,ascii "NSERT INTO ",_,?_,by decide,.after (by decide)
      (named.meets (.given (by decide : Balanced (ascii " DEFAULT VALUES"))) rfl)⟩
    simp only [List.append_assoc]
    rfl
  · rename_i some
    have closed := cells.meets (.given (by decide : Balanced (ascii ")"))) rfl
    rw [List.append_nil] at closed
    rw [if_neg (by simpa using some)]
    refine ⟨73,ascii "NSERT INTO ",_,?_,by decide,.after (by decide) (named.meets
      (.after (by decide : closes (ascii " (") = true) (names.meets
        (.after (by decide : closes (ascii ") VALUES (") = true) closed) rfl)) rfl)⟩
    simp only [List.append_assoc]
    rfl

end

def quotedColumns : List PgNativeColumn := [⟨[34,59],ascii "text",true,some (ascii "';'")⟩,⟨[99],ascii "text",false,none⟩]

theorem table_dump_splits (table : PgNativeTable) (columns : List PgNativeColumn) (rows : List (List (Option Bytes)))
    (own : ∀ column ∈ columns, Balanced column.type ∧ Balanced (column.default.getD [])) :
    ∃ schemas create inserts,
      splitPGSQLStatements (writeNativeTableDefinition table columns ++ writeNativeTableData table columns rows) =
        some (schemas ++ create :: inserts) ∧
      schemas.map (readStatement schemaSlots) = (if table.schema = ascii "public" then [] else [some [some table.schema]]) ∧
      readStatement (tableSlots columns) create = some (named table columns) ∧
      inserts.map (readStatement (rowSlots columns.length)) =
        rows.map fun row => some (named table columns ++ row.takeD columns.length none) := by
  refine ⟨schemaStatements table.schema,(tableText table columns).dropLast,
    rows.map fun row => (insertRow table columns row).dropLast,?_,?_,(table_line table columns own).read,?_⟩
  · have written : writeNativeTableDefinition table columns =
        (if table.schema ≠ ascii "public" then createSchema table.schema else []) ++ (tableText table columns ++ [10]) := by
      simp only [writeNativeTableDefinition,tableText,List.append_assoc]
      rfl
    have data : scan .plain 0 [] (writeNativeTableData table columns rows) =
        some (rows.map fun row => (insertRow table columns row).dropLast) := by
      rw [writeNativeTableData]
      induction rows with
      | nil => rfl
      | cons row rows ih =>
        rw [List.flatMap_cons,List.append_assoc,scan_line (row_line table columns row),ih]
        rfl
    rw [splitPGSQLStatements,written,List.append_assoc,scan_schema,List.append_assoc,scan_line (table_line table columns own),
      List.singleton_append,scan_newline,data]
    rfl
  · by_cases shared : table.schema = ascii "public"
    · simp [schemaStatements,shared]
    · rw [schemaStatements,if_pos shared,if_neg shared,← schema_statement,List.map_singleton,(schema_line _).read]
  · rw [List.map_map]
    exact List.map_congr_left fun row _ => (row_line table columns row).read

-- Quotes and semicolons in a name, a default and a value, and a row that is short.
theorem semicolon_row_kept : ∃ schema create first second,
    splitPGSQLStatements (writeNativeTableDefinition ⟨[115],[116]⟩ quotedColumns ++
      writeNativeTableData ⟨[115],[116]⟩ quotedColumns [[some (ascii "';"),some [34]],[none]]) =
        some [schema,create,first,second] ∧
    readStatement (tableSlots quotedColumns) create = some [some [115],some [116],some [34,59],some [99]] ∧
    readStatement (rowSlots 2) first =
      some [some [115],some [116],some [34,59],some [99],some (ascii "';"),some [34]] ∧
    readStatement (rowSlots 2) second = some [some [115],some [116],some [34,59],some [99],none,none] := by
  obtain ⟨schemas,create,inserts,split,known,made,filled⟩ := table_dump_splits ⟨[115],[116]⟩ quotedColumns
    [[some (ascii "';"),some [34]],[none]] (by decide)
  obtain ⟨schema,rfl⟩ := List.length_eq_one_iff.mp ((List.length_map _).symm.trans (congrArg List.length known))
  obtain ⟨first,second,rfl⟩ := List.length_eq_two.mp ((List.length_map _).symm.trans (congrArg List.length filled))
  obtain ⟨one,rest⟩ := List.cons.inj filled
  exact ⟨schema,create,first,second,split,made,one,(List.cons.inj rest).1⟩

end Kronos.PgSplit
