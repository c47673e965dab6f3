import Kronos.Utf8

namespace Kronos.JsonString
open ByteRange Utf8

-- The text encoding/json puts between the quotes of a string, HTML escaping on.
def hexDigit (n : Nat) : UInt8 := if n < 10 then UInt8.ofNat (48 + n) else UInt8.ofNat (87 + n)

def escapeByte (b : UInt8) : Bytes :=
  if b = 34 ∨ b = 92 then [92,b]
  else if b = 8 then [92,98]
  else if b = 12 then [92,102]
  else if b = 10 then [92,110]
  else if b = 13 then [92,114]
  else if b = 9 then [92,116]
  else if b < 32 ∨ b = 38 ∨ b = 60 ∨ b = 62 then
    [92,117,48,48,hexDigit (b.toNat / 16),hexDigit (b.toNat % 16)]
  else [b]

def quotePiece : Piece → Bytes
  | .bad _ => [92,117,102,102,102,100]
  | .rune [b] => escapeByte b
  | .rune bytes =>
    if bytes = [0xE2,0x80,0xA8] then [92,117,50,48,50,56]
    else if bytes = [0xE2,0x80,0xA9] then [92,117,50,48,50,57]
    else bytes

def quote (text : Bytes) : Bytes := (pieces text).flatMap quotePiece

def hexValue (b : UInt8) : Option Nat :=
  if 48 ≤ b ∧ b ≤ 57 then some (b.toNat - 48)
  else if 97 ≤ b ∧ b ≤ 102 then some (b.toNat - 87)
  else if 65 ≤ b ∧ b ≤ 70 then some (b.toNat - 55)
  else none

-- Four hexadecimal digits after a backslash and a u.
def readHex : Bytes → Option (Nat × Bytes)
  | a :: b :: c :: d :: rest => do
    let a ← hexValue a
    let b ← hexValue b
    let c ← hexValue c
    let d ← hexValue d
    return (((a*16+b)*16+c)*16+d,rest)
  | _ => none

def encodeRune (code : Nat) : Bytes :=
  if code < 0x80 then [UInt8.ofNat code]
  else if code < 0x800 then [UInt8.ofNat (0xC0 + code / 64),UInt8.ofNat (0x80 + code % 64)]
  else if code < 0x10000 then
    [UInt8.ofNat (0xE0 + code / 4096),UInt8.ofNat (0x80 + code / 64 % 64),UInt8.ofNat (0x80 + code % 64)]
  else
    [UInt8.ofNat (0xF0 + code / 262144),UInt8.ofNat (0x80 + code / 4096 % 64),
      UInt8.ofNat (0x80 + code / 64 % 64),UInt8.ofNat (0x80 + code % 64)]

-- A surrogate needs its other half at once; alone it stands for U+FFFD.
def readCode (rest : Bytes) : Option (Bytes × Bytes) := do
  let (code,rest) ← readHex rest
  if code < 0xD800 ∨ 0xDFFF < code then return (encodeRune code,rest)
  match rest with
  | 92 :: 117 :: later =>
    match readHex later with
    | some (low,later) =>
      if code < 0xDC00 ∧ 0xDC00 ≤ low ∧ low ≤ 0xDFFF then
        return (encodeRune (0x10000 + (code - 0xD800) * 1024 + (low - 0xDC00)),later)
      else return (Piece.replacement,rest)
    | none => return (Piece.replacement,rest)
  | _ => return (Piece.replacement,rest)

def readEscape (c : UInt8) (rest : Bytes) : Option (Bytes × Bytes) :=
  if c = 34 ∨ c = 92 ∨ c = 47 then some ([c],rest)
  else if c = 98 then some ([8],rest)
  else if c = 102 then some ([12],rest)
  else if c = 110 then some ([10],rest)
  else if c = 114 then some ([13],rest)
  else if c = 116 then some ([9],rest)
  else if c = 117 then readCode rest
  else none

def unquotePiece : Bytes → Option (Bytes × Bytes)
  | [] => none
  | b :: rest =>
    if b = 92 then
      match rest with
      | c :: rest => readEscape c rest
      | [] => none
    else if b = 34 ∨ b < 32 then none
    else match decodeRune (b :: rest) with
      | some (rune,rest) => some (rune,rest)
      | none => some (Piece.replacement,rest)

def unquoteFrom : Nat → Bytes → Option Bytes
  | _,[] => some []
  | 0,_ => none
  | fuel+1,text => do
    let (bytes,rest) ← unquotePiece text
    let later ← unquoteFrom fuel rest
    return bytes ++ later

def unquote (text : Bytes) : Option Bytes := unquoteFrom text.length text

theorem hexValue_hexDigit (n : Nat) (small : n < 16) : hexValue (hexDigit n) = some n := by
  have all : ∀ m : Fin 16, hexValue (hexDigit m.val) = some m.val := by decide
  exact all ⟨n,small⟩

theorem readEscape_hex (b : UInt8) (ascii : b < 0x80) (rest : Bytes) :
    readEscape 117 (48 :: 48 :: hexDigit (b.toNat / 16) :: hexDigit (b.toNat % 16) :: rest) =
      some ([b],rest) := by
  have small : b.toNat < 128 := UInt8.lt_iff_toNat_lt.mp ascii
  have high := hexValue_hexDigit (b.toNat / 16) (by omega)
  have low := hexValue_hexDigit (b.toNat % 16) (by omega)
  have zero : hexValue 48 = some 0 := by decide
  have code : ((0*16+0)*16+b.toNat / 16)*16+b.toNat % 16 = b.toNat := by omega
  have read : readHex (48 :: 48 :: hexDigit (b.toNat / 16) :: hexDigit (b.toNat % 16) :: rest) =
      some (b.toNat,rest) := by
    simp only [readHex,zero,high,low,Option.bind_eq_bind,Option.bind_some,code]
    rfl
  have plain : b.toNat < 0xD800 ∨ 0xDFFF < b.toNat := .inl (by omega)
  change readCode _ = _
  simp only [readCode,read,Option.bind_eq_bind,Option.bind_some,if_pos plain,encodeRune,if_pos small,
    UInt8.ofNat_toNat]
  rfl

theorem unquotePiece_escapeByte (b : UInt8) (ascii : b < 0x80) (rest : Bytes) :
    unquotePiece (escapeByte b ++ rest) = some ([b],rest) := by
  unfold escapeByte
  split_ifs with marks back form line ret tab other
  · rcases marks with rfl | rfl <;> rfl
  · subst back; rfl
  · subst form; rfl
  · subst line; rfl
  · subst ret; rfl
  · subst tab; rfl
  · exact readEscape_hex b ascii rest
  · obtain ⟨quoted,slash⟩ := not_or.mp marks
    obtain ⟨control,_⟩ := not_or.mp other
    simp only [List.cons_append,List.nil_append,unquotePiece,if_neg slash,if_neg (not_or.mpr ⟨quoted,control⟩)]
    rw [show b :: rest = [b] ++ rest from rfl,decodeRune_rune (.one ascii)]

theorem rune_raw_or_ascii {rune : Bytes} (valid : Rune rune) : (∃ b, b < 0x80 ∧ rune = [b]) ∨
      ∃ lead next later, 0x80 ≤ lead ∧ rune = lead :: next :: later := by
  cases valid with
  | one ascii => exact .inl ⟨_,ascii,rfl⟩
  | two high | three high | four high => exact .inr ⟨_,_,_,UInt8.not_lt.mp high,rfl⟩

theorem tailByte_high (tail : tailByte b = true) : 0x80 ≤ b := by
  simp only [tailByte,Bool.and_eq_true,decide_eq_true_eq] at tail
  exact tail.1

theorem secondByte_high (second : secondByte lead b = true) : 0x80 ≤ b := by
  unfold secondByte at second
  split_ifs at second
  iterate 4
    simp only [Bool.and_eq_true,decide_eq_true_eq] at second
    exact UInt8.le_trans (by decide) second.1
  exact tailByte_high second

theorem rune_high_bytes {lead next : UInt8} {later : Bytes} (valid : Rune (lead :: next :: later)) :
    ∀ b ∈ lead :: next :: later, 0x80 ≤ b := by
  cases valid with
  | two high _ _ tail =>
    simp only [List.forall_mem_cons,List.not_mem_nil,false_imp_iff,implies_true,and_true]
    exact ⟨UInt8.not_lt.mp high,tailByte_high tail⟩
  | three high _ _ _ tails =>
    simp only [List.forall_mem_cons,List.not_mem_nil,false_imp_iff,implies_true,and_true]
    rw [Bool.and_eq_true] at tails
    exact ⟨UInt8.not_lt.mp high,secondByte_high tails.1,tailByte_high tails.2⟩
  | four high _ _ _ _ tails =>
    simp only [List.forall_mem_cons,List.not_mem_nil,false_imp_iff,implies_true,and_true]
    rw [Bool.and_eq_true,Bool.and_eq_true] at tails
    exact ⟨UInt8.not_lt.mp high,secondByte_high tails.1.1,tailByte_high tails.1.2,
      tailByte_high tails.2⟩

theorem high_plain {b : UInt8} (high : 0x80 ≤ b) : b ≠ 34 ∧ b ≠ 92 := by
  refine ⟨?_,?_⟩ <;> (intro same; exact absurd (same ▸ high) (by decide))

-- A rune of several bytes is written as it is; none of its bytes is a mark.
theorem unquotePiece_raw {lead : UInt8} {later : Bytes} (valid : Rune (lead :: later))
    (high : 0x80 ≤ lead) (rest : Bytes) : unquotePiece (lead :: later ++ rest) = some (lead :: later,rest) := by
  obtain ⟨quoted,slash⟩ := high_plain high
  have control : ¬ lead < 32 := UInt8.not_lt.mpr (UInt8.le_trans (by decide) high)
  simp only [List.cons_append,unquotePiece,if_neg slash,if_neg (not_or.mpr ⟨quoted,control⟩)]
  rw [← List.cons_append,decodeRune_rune valid]

theorem unquotePiece_quotePiece {piece : Piece} (sound : piece.Sound) (rest : Bytes) :
    unquotePiece (quotePiece piece ++ rest) = some (piece.repaired.bytes,rest) := by
  cases piece with
  | bad => rfl
  | rune =>
    rcases rune_raw_or_ascii sound with ⟨b,ascii,rfl⟩ | ⟨_,_,_,high,rfl⟩
    · exact unquotePiece_escapeByte b ascii rest
    · simp only [quotePiece]
      split_ifs with line paragraph
      · rw [line]; rfl
      · rw [paragraph]; rfl
      · exact unquotePiece_raw sound high rest

theorem unquoteFrom_quoted (read : List Piece) (sound : ∀ piece ∈ read, piece.Sound) :
    ∀ fuel, (read.flatMap quotePiece).length ≤ fuel →
      unquoteFrom fuel (read.flatMap quotePiece) = some (read.flatMap (fun p => p.repaired.bytes)) := by
  induction read with
  | nil => intro fuel _; cases fuel <;> rfl
  | cons piece rest ih =>
    intro fuel enough
    obtain ⟨first,later⟩ := List.forall_mem_cons.mp sound
    have step := unquotePiece_quotePiece first (rest.flatMap quotePiece)
    simp only [List.flatMap_cons,List.length_append] at enough ⊢
    cases shape : quotePiece piece ++ rest.flatMap quotePiece with
    | nil => rw [shape] at step; cases step
    | cons =>
      have some_byte : 0 < (quotePiece piece).length := by
        cases written : quotePiece piece with
        | cons => simp
        | nil =>
          have taken := unquotePiece_quotePiece first []
          rw [written] at taken
          cases taken
      obtain ⟨fuel,rfl⟩ : ∃ n, fuel = n + 1 := ⟨fuel - 1,by omega⟩
      rw [← shape,unquoteFrom]
      · rw [step]
        simp only [Option.bind_eq_bind,Option.bind_some,ih later fuel (by omega)]
        rfl
      · rw [shape]; intro empty; cases empty

theorem unquote_quote (text : Bytes) : unquote (quote text) = some (repair text) :=
  unquoteFrom_quoted (pieces text) (pieces_sound text) _ (Nat.le_refl _)

theorem quotePiece_repaired (same : quotePiece piece.repaired = quotePiece piece) : piece.repaired = piece := by
  cases piece with
  | rune => rfl
  | bad =>
    have first : (0xEF : UInt8) = 92 := (List.cons.inj same).1
    exact absurd first (by decide)

-- A byte that belongs to no rune is written as an escape, the rune that
-- replaces it as its own bytes, so the two texts agree on valid strings only.
theorem quote_repair_iff (text : Bytes) : quote (repair text) = quote text ↔ Valid text := by
  constructor
  · have sound := pieces_sound text
    unfold quote Valid
    rw [pieces_repair]
    generalize pieces text = read at sound
    induction read with
    | nil => intro _ piece member; cases member
    | cons piece rest ih =>
      intro same
      obtain ⟨first,later⟩ := List.forall_mem_cons.mp sound
      simp only [List.map_cons,List.flatMap_cons] at same
      obtain ⟨_,valid,rune⟩ := Piece.repaired_bytes first
      have left := @unquotePiece_quotePiece piece.repaired (rune ▸ valid)
        ((rest.map Piece.repaired).flatMap quotePiece)
      rw [same,unquotePiece_quotePiece first] at left
      obtain ⟨_,tails⟩ := Prod.mk.inj (Option.some.inj left)
      rw [← tails] at same
      have heads := quotePiece_repaired (List.append_cancel_right same)
      exact List.forall_mem_cons.mpr ⟨heads,ih later tails.symm⟩
  · intro valid
    rw [valid.repair]

theorem quote_plain (plain : ∀ b ∈ text, b < 0x80 ∧ escapeByte b = [b]) : quote text = text := by
  rw [quote,ascii_pieces text (fun b member => (plain b member).1)]
  induction text with
  | nil => rfl
  | cons b rest ih =>
    obtain ⟨first,later⟩ := List.forall_mem_cons.mp plain
    rw [List.map_cons,List.flatMap_cons,ih later]
    change escapeByte b ++ rest = _
    rw [first.2]
    rfl

theorem tailByte_ofNat (small : n < 64) : tailByte (UInt8.ofNat (0x80 + n)) = true := by
  simp only [tailByte,UInt8.le_iff_toNat_le,UInt8.toNat_ofNat',UInt8.toNat_ofNat,Bool.and_eq_true,
    decide_eq_true_eq]
  omega

-- The leads with a narrower range for their second byte are those whose other
-- values would be overlong, surrogates or past the last code point.
theorem secondByte_ofNat (large : lead < 256) (small : n < 64) (overlong : lead = 0xE0 → 0x20 ≤ n)
    (surrogate : lead = 0xED → n < 0x20) (wide : lead = 0xF0 → 0x10 ≤ n) (last : lead = 0xF4 → n < 0x10) :
    secondByte (UInt8.ofNat lead) (UInt8.ofNat (0x80 + n)) = true := by
  have tail := tailByte_ofNat small
  simp only [tailByte,UInt8.le_iff_toNat_le,UInt8.toNat_ofNat',UInt8.toNat_ofNat,Bool.and_eq_true,
    decide_eq_true_eq] at tail
  simp only [secondByte]
  split_ifs <;>
    simp only [tailByte,UInt8.le_iff_toNat_le,UInt8.toNat_ofNat',UInt8.toNat_ofNat,Bool.and_eq_true,
      decide_eq_true_eq,← UInt8.toNat_inj] at * <;> omega

theorem encodeRune_rune (scalar : code < 0xD800 ∨ 0xDFFF < code ∧ code < 0x110000) : Rune (encodeRune code) := by
  have below : ∀ {n : Nat} (m : Nat), n < 256 → m < 256 → (UInt8.ofNat n < UInt8.ofNat m ↔ n < m) := by
    intro n m small bound
    rw [UInt8.lt_iff_toNat_lt,UInt8.toNat_ofNat',UInt8.toNat_ofNat',Nat.mod_eq_of_lt small,
      Nat.mod_eq_of_lt bound]
  unfold encodeRune
  split_ifs with one two three
  · exact .one ((below 0x80 (by omega) (by decide)).mpr one)
  · apply Rune.two
    · exact (below 0x80 (by omega) (by decide)).not.mpr (by omega)
    · exact (below 0xC2 (by omega) (by decide)).not.mpr (by omega)
    · exact (below 0xE0 (by omega) (by decide)).mpr (by omega)
    · exact tailByte_ofNat (by omega)
  · apply Rune.three
    · exact (below 0x80 (by omega) (by decide)).not.mpr (by omega)
    · exact (below 0xC2 (by omega) (by decide)).not.mpr (by omega)
    · exact (below 0xE0 (by omega) (by decide)).not.mpr (by omega)
    · exact (below 0xF0 (by omega) (by decide)).mpr (by omega)
    · rw [secondByte_ofNat (by omega) (by omega) (by omega) (by omega) (by omega) (by omega),
        tailByte_ofNat (by omega)]
      rfl
  · apply Rune.four
    · exact (below 0x80 (by omega) (by decide)).not.mpr (by omega)
    · exact (below 0xC2 (by omega) (by decide)).not.mpr (by omega)
    · exact (below 0xE0 (by omega) (by decide)).not.mpr (by omega)
    · exact (below 0xF0 (by omega) (by decide)).not.mpr (by omega)
    · exact (below 0xF5 (by omega) (by decide)).mpr (by omega)
    · rw [secondByte_ofNat (by omega) (by omega) (by omega) (by omega) (by omega) (by omega),
        tailByte_ofNat (by omega),tailByte_ofNat (by omega)]
      rfl

theorem hexValue_lt (value : hexValue b = some n) : n < 16 := by
  unfold hexValue at value
  split_ifs at value with digit lower upper
  all_goals
    obtain rfl := Option.some.inj value
    simp only [UInt8.le_iff_toNat_le,UInt8.toNat_ofNat] at *
    omega

theorem readHex_lt (read : readHex text = some (code,rest)) : code < 0x10000 := by
  unfold readHex at read
  split at read
  · simp only [Option.bind_eq_bind,Option.bind_eq_some_iff,Option.pure_def,Option.some.injEq,
      Prod.mk.injEq] at read
    obtain ⟨_,first,_,second,_,third,_,fourth,rfl,_⟩ := read
    have := hexValue_lt first
    have := hexValue_lt second
    have := hexValue_lt third
    have := hexValue_lt fourth
    omega
  · cases read

theorem replacement_rune : Rune Piece.replacement :=
  .three (by decide) (by decide) (by decide) (by decide) (by decide)

theorem readCode_rune (read : readCode text = some (bytes,rest)) : Rune bytes := by
  obtain ⟨⟨code,later⟩,digits,read⟩ := Option.bind_eq_some_iff.mp read
  have small := readHex_lt digits
  dsimp only at read
  split_ifs at read with plain
  · obtain ⟨rfl,_⟩ := Prod.mk.inj (Option.some.inj read)
    exact encodeRune_rune (by omega)
  · split at read
    · split at read
      · rename_i low _ more
        split_ifs at read with pair
        · obtain ⟨rfl,_⟩ := Prod.mk.inj (Option.some.inj read)
          exact encodeRune_rune (.inr (by omega))
        · obtain ⟨rfl,_⟩ := Prod.mk.inj (Option.some.inj read)
          exact replacement_rune
      · obtain ⟨rfl,_⟩ := Prod.mk.inj (Option.some.inj read)
        exact replacement_rune
    · obtain ⟨rfl,_⟩ := Prod.mk.inj (Option.some.inj read)
      exact replacement_rune

theorem readEscape_rune (read : readEscape c text = some (bytes,rest)) : Rune bytes := by
  unfold readEscape at read
  split_ifs at read with same
  · obtain ⟨rfl,_⟩ := Prod.mk.inj (Option.some.inj read)
    apply Rune.one
    rcases same with rfl | rfl | rfl | rfl <;> decide
  iterate 5
    obtain ⟨rfl,_⟩ := Prod.mk.inj (Option.some.inj read)
    exact Rune.one (by decide)
  · exact readCode_rune read

theorem unquotePiece_rune (read : unquotePiece text = some (bytes,rest)) : Rune bytes := by
  unfold unquotePiece at read
  split at read
  · cases read
  · split_ifs at read
    · split at read
      · exact readEscape_rune read
      · cases read
    · split at read
      · rename_i taken
        obtain ⟨rfl,_⟩ := Prod.mk.inj (Option.some.inj read)
        exact (decodeRune_exact taken).2
      · obtain ⟨rfl,_⟩ := Prod.mk.inj (Option.some.inj read)
        exact replacement_rune

theorem unquoteFrom_valid (fuel : Nat) (text : Bytes) (read : unquoteFrom fuel text = some bytes) : Valid bytes := by
  induction fuel generalizing text bytes with
  | zero =>
    cases text with
    | nil => obtain rfl := Option.some.inj read; decide
    | cons => cases read
  | succ _ ih =>
    cases text with
    | nil => obtain rfl := Option.some.inj read; decide
    | cons =>
      simp only [unquoteFrom,Option.bind_eq_bind,Option.bind_eq_some_iff,Option.pure_def,
        Option.some.injEq] at read
      obtain ⟨⟨_,tail⟩,piece,later,rest_read,rfl⟩ := read
      have rune := unquotePiece_rune piece
      intro p member
      rw [pieces_rune (decodeRune_rune rune later)] at member
      rcases List.mem_cons.mp member with rfl | old
      · rfl
      · exact ih tail rest_read p old

-- Whatever text a string is read from, the string is valid UTF-8.
theorem unquote_valid (read : unquote text = some bytes) : Valid bytes :=
  unquoteFrom_valid _ text read

-- Where the string that starts at a text ends: at the first quote that no
-- backslash escapes.
def scanString (escaped : Bool) : Bytes → Option (Bytes × Bytes)
  | [] => none
  | b :: rest =>
    if !escaped && b = 34 then some ([],rest)
    else (scanString (!escaped && b = 92) rest).map (fun (token,rest) => (b :: token,rest))

-- A string token is scanned to its end and has to be readable.
def readString (text : Bytes) : Option (Bytes × Bytes) :=
  match scanString false text with
  | some (token,rest) => if (unquote token).isSome then some (token,rest) else none
  | none => none

def Token (token : Bytes) : Prop := ∀ rest, readString (token ++ 34 :: rest) = some (token,rest)

-- Bytes a scan passes over whatever follows them.
def Passed (bytes : Bytes) : Prop :=
  ∀ rest, scanString false (bytes ++ rest) =
    (scanString false rest).map (fun (token,rest) => (bytes ++ token,rest))

theorem Passed.nil : Passed [] := by
  intro rest
  simp

theorem Passed.append (left : Passed first) (right : Passed later) : Passed (first ++ later) := by
  intro rest
  rw [List.append_assoc,left,right,Option.map_map]
  congr 1
  funext scanned
  simp

theorem Passed.token {token : Bytes} (passed : Passed token) (readable : (unquote token).isSome) : Token token := by
  intro rest
  have scanned : scanString false (token ++ 34 :: rest) = some (token,rest) := by
    rw [passed]
    simp [scanString]
  simp only [readString,scanned,readable,if_true]

theorem passed_byte (plain : b ≠ 34 ∧ b ≠ 92) : Passed [b] := by
  intro rest
  simp [scanString,plain.1,plain.2]

theorem passed_plain {bytes : Bytes} (plain : ∀ b ∈ bytes, b ≠ 34 ∧ b ≠ 92) : Passed bytes := by
  induction bytes with
  | nil => exact .nil
  | cons _ _ ih =>
    obtain ⟨first,later⟩ := List.forall_mem_cons.mp plain
    exact (passed_byte first).append (ih later)

theorem passed_escape (c : UInt8) : Passed [92,c] := by
  intro rest
  simp [scanString,Function.comp_def]

theorem passed_code {a : UInt8} (first : a ≠ 34 ∧ a ≠ 92) (second : b ≠ 34 ∧ b ≠ 92) (third : c ≠ 34 ∧ c ≠ 92)
    (fourth : d ≠ 34 ∧ d ≠ 92) : Passed [92,117,a,b,c,d] := by
  apply (passed_escape 117).append
  apply passed_plain
  simp only [List.forall_mem_cons,List.not_mem_nil,false_imp_iff,implies_true,and_true]
  exact ⟨first,second,third,fourth⟩

theorem hexDigit_plain (n : Nat) (small : n < 16) : hexDigit n ≠ 34 ∧ hexDigit n ≠ 92 := by
  have all : ∀ m : Fin 16, hexDigit m.val ≠ 34 ∧ hexDigit m.val ≠ 92 := by decide
  exact all ⟨n,small⟩

theorem escapeByte_passed (b : UInt8) : Passed (escapeByte b) := by
  have small := b.toNat_lt
  unfold escapeByte
  split_ifs with marks back form line ret tab other
  iterate 6 exact passed_escape _
  · exact passed_code (by decide) (by decide) (hexDigit_plain _ (by omega)) (hexDigit_plain _ (by omega))
  · exact passed_byte (not_or.mp marks)

theorem quotePiece_passed {piece : Piece} (sound : piece.Sound) : Passed (quotePiece piece) := by
  cases piece with
  | bad => exact passed_code (by decide) (by decide) (by decide) (by decide)
  | rune =>
    rcases rune_raw_or_ascii sound with ⟨b,_,rfl⟩ | ⟨_,_,_,_,rfl⟩
    · exact escapeByte_passed b
    · simp only [quotePiece]
      split_ifs with line paragraph
      · exact passed_code (by decide) (by decide) (by decide) (by decide)
      · exact passed_code (by decide) (by decide) (by decide) (by decide)
      · exact passed_plain (fun b member => high_plain (rune_high_bytes sound b member))

theorem quote_token (text : Bytes) : Token (quote text) := by
  refine Passed.token ?_ (by rw [unquote_quote]; rfl)
  have sound := pieces_sound text
  unfold quote
  generalize pieces text = read at sound
  induction read with
  | nil => exact .nil
  | cons _ _ ih =>
    obtain ⟨first,later⟩ := List.forall_mem_cons.mp sound
    exact (quotePiece_passed first).append (ih later)

end Kronos.JsonString
