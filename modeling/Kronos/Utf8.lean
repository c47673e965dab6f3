import Kronos.ByteRange

namespace Kronos.Utf8
open ByteRange

def ascii (text : String) : Bytes := text.toList.map (fun c => UInt8.ofNat c.toNat)

-- Strings of arbitrary bytes read as UTF-8: each step takes one well-formed
-- encoding, or one byte that starts none.
def tailByte (b : UInt8) : Bool := 0x80 ≤ b && b ≤ 0xBF

def secondByte (lead b : UInt8) : Bool :=
  if lead = 0xE0 then 0xA0 ≤ b && b ≤ 0xBF
  else if lead = 0xED then 0x80 ≤ b && b ≤ 0x9F
  else if lead = 0xF0 then 0x90 ≤ b && b ≤ 0xBF
  else if lead = 0xF4 then 0x80 ≤ b && b ≤ 0x8F
  else tailByte b

def decodeRune : Bytes → Option (Bytes × Bytes)
  | [] => none
  | a :: rest =>
    if a < 0x80 then some ([a],rest)
    else if a < 0xC2 then none
    else if a < 0xE0 then
      match rest with
      | b :: rest => if tailByte b then some ([a,b],rest) else none
      | _ => none
    else if a < 0xF0 then
      match rest with
      | b :: c :: rest => if secondByte a b && tailByte c then some ([a,b,c],rest) else none
      | _ => none
    else if a < 0xF5 then
      match rest with
      | b :: c :: d :: rest =>
        if secondByte a b && tailByte c && tailByte d then some ([a,b,c,d],rest) else none
      | _ => none
    else none

-- What one successful read says: which bytes it took, and that it would have
-- taken the same ones before any other text.
inductive Rune : Bytes → Prop
  | one {a : UInt8} : a < 0x80 → Rune [a]
  | two {a b : UInt8} : ¬ a < 0x80 → ¬ a < 0xC2 → a < 0xE0 → tailByte b → Rune [a,b]
  | three {a b c : UInt8} : ¬ a < 0x80 → ¬ a < 0xC2 → ¬ a < 0xE0 → a < 0xF0 →
      (secondByte a b && tailByte c) → Rune [a,b,c]
  | four {a b c d : UInt8} : ¬ a < 0x80 → ¬ a < 0xC2 → ¬ a < 0xE0 → ¬ a < 0xF0 → a < 0xF5 →
      (secondByte a b && tailByte c && tailByte d) → Rune [a,b,c,d]

theorem decodeRune_rune (valid : Rune rune) (rest : Bytes) : decodeRune (rune ++ rest) = some (rune,rest) := by
  cases valid with
  | one ascii => simp only [List.cons_append,List.nil_append,decodeRune,if_pos ascii]
  | two past high lead second =>
    simp only [List.cons_append,List.nil_append,decodeRune,if_neg past,if_neg high,if_pos lead,second,
      if_true]
  | three past high above lead later =>
    simp only [List.cons_append,List.nil_append,decodeRune,if_neg past,if_neg high,if_neg above,
      if_pos lead,later,if_true]
  | four past high above beyond lead later =>
    simp only [List.cons_append,List.nil_append,decodeRune,if_neg past,if_neg high,if_neg above,
      if_neg beyond,if_pos lead,later,if_true]

theorem decodeRune_exact (read : decodeRune text = some (rune,rest)) : text = rune ++ rest ∧ Rune rune := by
  fun_cases decodeRune text
  all_goals simp_all only [decodeRune,reduceCtorEq,if_true,if_false,Option.some.injEq,Prod.mk.injEq,
    Bool.false_eq_true]
  all_goals obtain ⟨rfl,rfl⟩ := read
  · exact ⟨rfl,.one ‹_›⟩
  · exact ⟨rfl,.two ‹_› ‹_› ‹_› ‹_›⟩
  · exact ⟨rfl,.three ‹_› ‹_› ‹_› ‹_› ‹_›⟩
  · exact ⟨rfl,.four ‹_› ‹_› ‹_› ‹_› ‹_› ‹_›⟩

inductive Piece
  | rune (bytes : Bytes) | bad (byte : UInt8)
  deriving DecidableEq,Repr

def readPieces : Nat → Bytes → List Piece
  | 0,_ => []
  | _,[] => []
  | fuel+1,b :: rest =>
    match decodeRune (b :: rest) with
    | some (rune,rest) => .rune rune :: readPieces fuel rest
    | none => .bad b :: readPieces fuel rest

def pieces (text : Bytes) : List Piece := readPieces text.length text

theorem Rune.size_pos (valid : Rune rune) : 0 < rune.length := by
  cases valid <;> simp

theorem decodeRune_shorter (read : decodeRune text = some (rune,rest)) : rest.length < text.length := by
  obtain ⟨rfl,valid⟩ := decodeRune_exact read
  rw [List.length_append]
  exact Nat.lt_add_of_pos_left valid.size_pos

theorem readPieces_fuel (fuel : Nat) (text : Bytes) (enough : text.length ≤ fuel) :
    readPieces fuel text = pieces text := by
  induction fuel using Nat.strongRecOn generalizing text with
  | ind fuel ih =>
    cases text with
    | nil => cases fuel <;> rfl
    | cons b rest =>
      obtain ⟨fuel,rfl⟩ : ∃ n, fuel = n + 1 := ⟨fuel - 1,by simp at enough; omega⟩
      simp only [List.length_cons] at enough
      simp only [pieces,List.length_cons,readPieces]
      cases read : decodeRune (b :: rest) with
      | none => simp only [ih fuel (by omega) rest (by omega)]; rfl
      | some taken =>
        obtain ⟨_,later⟩ := taken
        have shorter : later.length ≤ rest.length := Nat.le_of_lt_succ (decodeRune_shorter read)
        simp only [ih fuel (by omega) later (by omega)]
        rw [ih rest.length (by omega) later shorter]

@[simp] theorem pieces_nil : pieces [] = [] := rfl

theorem pieces_rune (read : decodeRune text = some (rune,rest)) : pieces text = .rune rune :: pieces rest := by
  cases text with
  | nil => cases read
  | cons _ later =>
    have enough : rest.length ≤ later.length := Nat.le_of_lt_succ (decodeRune_shorter read)
    simp only [pieces,List.length_cons,readPieces,read]
    rw [readPieces_fuel _ _ enough]
    rfl

theorem pieces_bad {b : UInt8} {rest : Bytes} (read : decodeRune (b :: rest) = none) :
    pieces (b :: rest) = .bad b :: pieces rest := by
  simp only [pieces,List.length_cons,readPieces,read]

-- Induction along the reads of a string.
theorem pieces_induction {motive : Bytes → Prop} (empty : motive [])
    (rune : ∀ r rest, Rune r → motive rest → motive (r ++ rest))
    (bad : ∀ b rest, decodeRune (b :: rest) = none → motive rest → motive (b :: rest))
    (text : Bytes) : motive text := by
  induction size : text.length using Nat.strongRecOn generalizing text with
  | ind _ ih =>
    cases text with
    | nil => exact empty
    | cons b rest =>
      simp only [List.length_cons] at size
      cases read : decodeRune (b :: rest) with
      | none => exact bad b rest read (ih rest.length (by omega) rest rfl)
      | some taken =>
        obtain ⟨r,later⟩ := taken
        obtain ⟨split,valid⟩ := decodeRune_exact read
        have shorter := decodeRune_shorter read
        rw [List.length_cons,size] at shorter
        rw [split]
        exact rune r later valid (ih later.length shorter later rfl)

namespace Piece

def bytes : Piece → Bytes
  | .rune bytes => bytes
  | .bad byte => [byte]

-- U+FFFD stands for a byte that belongs to no rune.
def replacement : Bytes := [0xEF,0xBF,0xBD]

def repaired : Piece → Piece
  | .rune bytes => .rune bytes
  | .bad _ => .rune replacement

def Sound : Piece → Prop
  | .rune bytes => Rune bytes
  | .bad _ => True

theorem repaired_bytes {piece : Piece} (sound : piece.Sound) : ∃ r, Rune r ∧ piece.repaired = .rune r := by
  cases piece with
  | rune r => exact ⟨r,sound,rfl⟩
  | bad => exact ⟨replacement,.three (by decide) (by decide) (by decide) (by decide) (by decide),rfl⟩

end Piece

theorem pieces_sound (text : Bytes) : ∀ piece ∈ pieces text, piece.Sound := by
  induction text using pieces_induction with
  | empty => simp
  | rune _ rest valid ih =>
    rw [pieces_rune (decodeRune_rune valid rest)]
    exact List.forall_mem_cons.mpr ⟨valid,ih⟩
  | bad _ _ read ih =>
    rw [pieces_bad read]
    exact List.forall_mem_cons.mpr ⟨trivial,ih⟩

theorem pieces_bytes (text : Bytes) : (pieces text).flatMap Piece.bytes = text := by
  induction text using pieces_induction with
  | empty => rfl
  | rune _ rest valid ih =>
    rw [pieces_rune (decodeRune_rune valid rest),List.flatMap_cons,ih]
    rfl
  | bad _ _ read ih =>
    rw [pieces_bad read,List.flatMap_cons,ih]
    rfl

def Valid (text : Bytes) : Prop := ∀ piece ∈ pieces text, piece.repaired = piece

instance (text : Bytes) : Decidable (Valid text) :=
  inferInstanceAs (Decidable (∀ piece ∈ pieces text, piece.repaired = piece))

theorem valid_empty : Valid [] := by decide

-- Reading a string as runes and writing the runes back.
def repair (text : Bytes) : Bytes := (pieces text).flatMap (fun piece => piece.repaired.bytes)

theorem pieces_repair (text : Bytes) : pieces (repair text) = (pieces text).map Piece.repaired := by
  have sound := pieces_sound text
  unfold repair
  generalize pieces text = read at sound
  induction read with
  | nil => rfl
  | cons piece _ ih =>
    obtain ⟨_,valid,same⟩ := Piece.repaired_bytes (sound piece List.mem_cons_self)
    rw [List.flatMap_cons,List.map_cons,same,Piece.bytes,pieces_rune (decodeRune_rune valid _),
      ih (fun q member => sound q (List.mem_cons_of_mem _ member))]

theorem Piece.repaired_repaired (piece : Piece) : piece.repaired.repaired = piece.repaired := by
  cases piece <;> rfl

theorem repair_valid (text : Bytes) : Valid (repair text) := by
  intro piece member
  rw [pieces_repair] at member
  obtain ⟨old,_,rfl⟩ := List.mem_map.mp member
  exact old.repaired_repaired

theorem Valid.repair (valid : Valid text) : repair text = text := by
  have same : (pieces text).flatMap (fun piece => piece.repaired.bytes) =
      (pieces text).flatMap Piece.bytes :=
    List.flatMap_congr (fun piece member => by rw [valid piece member])
  exact same.trans (pieces_bytes text)

theorem repair_eq_nil : repair text = [] ↔ text = [] := by
  constructor
  · intro empty
    have none_left := pieces_repair text
    rw [empty,pieces_nil] at none_left
    rw [← pieces_bytes text,List.map_eq_nil_iff.mp none_left.symm]
    rfl
  · intro empty
    rw [empty]
    rfl

theorem ascii_pieces (text : Bytes) (ascii : ∀ b ∈ text, b < 0x80) : pieces text = text.map (fun b => .rune [b]) := by
  induction text with
  | nil => rfl
  | cons _ rest ih =>
    obtain ⟨first,later⟩ := List.forall_mem_cons.mp ascii
    rw [List.map_cons,← ih later]
    exact pieces_rune (decodeRune_rune (.one first) rest)

theorem ascii_valid (ascii : ∀ b ∈ text, b < 0x80) : Valid text := by
  intro piece member
  rw [ascii_pieces text ascii] at member
  obtain ⟨_,_,rfl⟩ := List.mem_map.mp member
  rfl

end Kronos.Utf8
