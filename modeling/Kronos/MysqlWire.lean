import Kronos.ByteRange

namespace Kronos.MysqlWire
open ByteRange

def mysqlMaxPacketSize : Nat := 2 ^ 24

structure MysqlPacket where
  length : Nat
  number : UInt8
  type : UInt8
  body : Bytes
  deriving DecidableEq, Repr

inductive PacketFault where
  | eof | unexpectedEOF | tooLarge (length : Nat) | indexOutOfRange
  deriving DecidableEq, Repr

def writePacket (packetNum : UInt8) (body : Bytes) : Bytes := putLE 3 body.length ++ packetNum :: body

-- io.ReadFull, and the bytes that stay unread.
def readFull (size : Nat) (input : Bytes) : Except PacketFault Bytes × Bytes :=
  if size ≤ input.length then (.ok (input.take size),input.drop size)
  else (.error (if input = [] then .eof else .unexpectedEOF),[])

-- binary.LittleEndian.Uint32 looks at the fourth byte before all others.
def uint32 (bytes : Bytes) : Except PacketFault Nat :=
  if bytes.length < 4 then .error .indexOutOfRange else .ok (getLE (bytes.take 4))

def readPacket (input : Bytes) : Except PacketFault MysqlPacket × Bytes :=
  match readFull 4 input with
  | (.error fault,rest) => (.error fault,rest)
  | (.ok header,rest) =>
    match uint32 (header.take 3) with
    | .error fault => (.error fault,rest)
    | .ok length =>
      if length = 0 then (.ok ⟨0,header.getD 3 0,0,[]⟩,rest)
      else if mysqlMaxPacketSize < length then (.error (.tooLarge length),rest)
      else match readFull length rest with
        | (.error fault,rest) => (.error fault,rest)
        | (.ok body,rest) => (.ok ⟨length,header.getD 3 0,body.headD 0,body.tail⟩,rest)

-- The length is taken from a slice of three bytes, so a complete header is
-- enough for the panic, whatever the packet is.
theorem written_packet_panics (packetNum : UInt8) (body following : Bytes) :
    readPacket (writePacket packetNum body ++ following) = (.error .indexOutOfRange,body ++ following) := by
  have cut : readFull 4 (writePacket packetNum body ++ following) =
      (.ok (putLE 3 body.length ++ [packetNum]),body ++ following) := by
    simp [readFull,writePacket,putLE]
  rw [readPacket,cut]
  rfl

theorem ping_packet_panics : readPacket (writePacket 0 [0x0e]) = (.error .indexOutOfRange,[0x0e]) := by decide

-- The length in front of a value, where the first byte is no NULL; none where
-- the bytes of a wide length are cut off.
def valueLength (first : UInt8) (rest : Bytes) : Option (Nat × Bytes) :=
  if first = 0xfc then if rest.length < 2 then none else some (getLE (rest.take 2),rest.drop 2)
  else if first = 0xfd then if rest.length < 3 then none else some (getLE (rest.take 3),rest.drop 3)
  else some (first.toNat,rest)

-- A row starts as NULL in every column. A value that runs over the end is cut,
-- and a value without bytes is not stored.
def parseRowPacket : Nat → Bytes → List (Option Bytes)
  | 0,_ => []
  | fields+1,[] => List.replicate (fields+1) none
  | fields+1,first :: rest =>
    if first = 0xfb then none :: parseRowPacket fields rest
    else match valueLength first rest with
      | none => List.replicate (fields+1) none
      | some (size,rest) =>
        (if rest.take size = [] then none else some (rest.take size)) :: parseRowPacket fields (rest.drop size)

-- What a server sends: NULL, or a length in its shortest form and the bytes.
def lengthEncoded (size : Nat) : Bytes :=
  if size < 0xfb then [UInt8.ofNat size]
  else if size < 2 ^ 16 then 0xfc :: putLE 2 size
  else if size < 2 ^ 24 then 0xfd :: putLE 3 size
  else 0xfe :: putLE 8 size

def encodeValue : Option Bytes → Bytes
  | none => [0xfb]
  | some value => lengthEncoded value.length ++ value

def encodeRow (row : List (Option Bytes)) : Bytes := row.flatMap encodeValue

section
variable (fields : Nat) (value following : Bytes)

theorem parse_sized (present : first ≠ 0xfb) (sized : valueLength first rest = some (value.length,value ++ following)) :
    parseRowPacket (fields+1) (first :: rest) =
      (if value = [] then none else some value) :: parseRowPacket fields following := by
  simp [parseRowPacket,present,sized]

theorem parse_value (small : value.length < 2 ^ 24) :
    parseRowPacket (fields+1) (encodeValue (some value) ++ following) =
      (if value = [] then none else some value) :: parseRowPacket fields following := by
  rw [encodeValue,lengthEncoded,List.append_assoc,if_pos small]
  split
  · rename_i short
    have low : (UInt8.ofNat value.length).toNat = value.length := UInt8.toNat_ofNat_of_lt' (Nat.lt_trans short (by decide))
    have apart : ∀ mark : UInt8, 0xfb ≤ mark.toNat → UInt8.ofNat value.length ≠ mark := by
      intro mark high same
      rw [← same,low] at high
      omega
    apply parse_sized fields value following (apart _ (by decide))
    rw [valueLength,if_neg (apart _ (by decide)),if_neg (apart _ (by decide)),low]
    rfl
  · split
    · rename_i short
      apply parse_sized fields value following (by decide)
      simp +arith [valueLength,putLE_length,getLE_putLE_small 2 _ short]
    · apply parse_sized fields value following (by decide)
      simp [valueLength,putLE_length,getLE_putLE_small 3 _ small]

-- 0xfe counts as a length of 254.
theorem parse_long (long : 2 ^ 24 ≤ value.length) : ∃ read rest, read.length = 254 ∧
    parseRowPacket (fields+1) (encodeValue (some value) ++ following) = some read :: parseRowPacket fields rest := by
  have marked : encodeValue (some value) ++ following = 0xfe :: (putLE 8 value.length ++ (value ++ following)) := by
    rw [encodeValue,lengthEncoded,if_neg (by omega),if_neg (by omega),if_neg (by omega),List.append_assoc,
      List.cons_append]
  have enough : 254 ≤ (putLE 8 value.length ++ (value ++ following)).length := by
    simp only [List.length_append]
    omega
  refine ⟨(putLE 8 value.length ++ (value ++ following)).take 254,(putLE 8 value.length ++ (value ++ following)).drop 254,
    List.length_take_of_le enough,?_⟩
  have solid : (putLE 8 value.length ++ (value ++ following)).take 254 ≠ [] := by
    apply List.ne_nil_of_length_pos
    rw [List.length_take_of_le enough]
    decide
  rw [marked]
  exact congrArg (fun cell => cell :: _) (if_neg solid)
end

theorem row_exact_iff (row : List (Option Bytes)) : parseRowPacket row.length (encodeRow row) = row ↔
    ∀ value, some value ∈ row → value ≠ [] ∧ value.length < 2 ^ 24 := by
  induction row with
  | nil => simp [parseRowPacket]
  | cons cell row ih =>
    rw [encodeRow,List.flatMap_cons,List.length_cons]
    change parseRowPacket (row.length + 1) (encodeValue cell ++ encodeRow row) = _ ↔ _
    cases cell with
    | none => simpa [encodeValue,parseRowPacket] using ih
    | some value =>
      simp only [List.mem_cons,Option.some.injEq,forall_eq_or_imp]
      by_cases small : value.length < 2 ^ 24
      · rw [parse_value _ _ _ small]
        by_cases empty : value = []
        · simp [empty]
        · rw [if_neg empty,List.cons.injEq,ih]
          exact and_congr_left' (iff_of_true rfl ⟨empty,small⟩)
      · obtain ⟨_,_,length,parsed⟩ := parse_long row.length value (encodeRow row) (by omega)
        rw [parsed]
        constructor
        · intro same
          have long := congrArg List.length (Option.some.inj (List.cons.inj same).1)
          omega
        · intro good
          exact absurd good.1.2 small

theorem empty_text_read_as_null : parseRowPacket 1 (encodeRow [some []]) = [none] := by decide

end Kronos.MysqlWire
