import Kronos.JsonCodec

namespace Kronos.Resp
open ByteRange Decimal JsonText

inductive RESPType where
  | simpleString | error | integer | bulkString | array | null
  deriving DecidableEq, Repr

structure Value where
  typ : RESPType
  string : Bytes
  int : Int64
  array : List Value
  null : Bool

def Value.text (typ : RESPType) (string : Bytes) : Value := ⟨typ,string,0,[],false⟩
def Value.nothing (typ : RESPType) : Value := ⟨typ,[],0,[],true⟩

-- A read that finds the input used up waits for more, or reports the end of a
-- closed connection; `stackOverflow` is the runtime panic of a nesting without
-- end.
inductive ReadFault where
  | eof | lineTerminator | number (line : Bytes) | unsupported (byte : UInt8) | bulkSize (size : Int) | bulkTerminator
  | arraySize (count : Int) | stackOverflow
  deriving DecidableEq, Repr

abbrev Read (α : Type) := Except ReadFault α × Bytes

def Read.next (read : Read α) (rest : α → Bytes → Read β) : Read β :=
  match read with
  | (.error fault,left) => (.error fault,left)
  | (.ok a,left) => rest a left

def crlf : Bytes := [13,10]

def readLine (input : Bytes) : Read Bytes :=
  match input.dropWhile (fun byte => decide (byte ≠ 10)) with
  | [] => (.error .eof,[])
  | _ :: rest =>
    let line := input.takeWhile (fun byte => decide (byte ≠ 10))
    if line.getLast? = some 13 then (.ok line.dropLast,rest) else (.error .lineTerminator,rest)

-- strconv.ParseInt and strconv.Atoi on a line.
def readNumber (input : Bytes) : Read Int64 :=
  (readLine input).next fun line rest =>
    match parseInt line with
    | none => (.error (.number line),rest)
    | some n => (.ok n,rest)

-- io.ReadFull
def readFull (size : Nat) (input : Bytes) : Read Bytes :=
  if input.length < size then (.error .eof,[]) else (.ok (input.take size),input.drop size)

-- What make allocates here, and where it panics, is told in RespMemory.
def readBulk (input : Bytes) : Read Value :=
  (readNumber input).next fun size rest =>
    if size.toInt = -1 then (.ok (.nothing .bulkString),rest)
    else if size.toInt < -1 then (.error (.bulkSize size.toInt),rest)
    else
      (readFull (size.toInt.toNat + 2) rest).next fun data rest =>
        if data.drop size.toInt.toNat ≠ crlf then (.error .bulkTerminator,rest)
        else (.ok (.text .bulkString (data.take size.toInt.toNat)),rest)

-- The loop of readArray.
def readMany (one : Bytes → Read Value) : Nat → Bytes → Read (List Value)
  | 0,input => (.ok [],input)
  | count+1,input => (one input).next fun value rest =>
    (readMany one count rest).next fun values rest => (.ok (value :: values),rest)

def readArray (one : Bytes → Read Value) (input : Bytes) : Read Value :=
  (readNumber input).next fun count rest =>
    if count.toInt = -1 then (.ok (.nothing .array),rest)
    else if count.toInt < -1 then (.error (.arraySize count.toInt),rest)
    else (readMany one count.toInt.toNat rest).next fun values rest => (.ok ⟨.array,[],0,values,false⟩,rest)

def readValueAt : Nat → Bytes → Read Value
  | 0,input => (.error .stackOverflow,input)
  | _+1,[] => (.error .eof,[])
  | depth+1,byte :: rest =>
    if byte = 43 then (readLine rest).next fun line rest => (.ok (.text .simpleString line),rest)
    else if byte = 45 then (readLine rest).next fun line rest => (.ok (.text .error line),rest)
    else if byte = 58 then (readNumber rest).next fun n rest => (.ok ⟨.integer,[],n,[],false⟩,rest)
    else if byte = 36 then readBulk rest
    else if byte = 42 then readArray (readValueAt depth) rest
    else if byte = 95 then (readLine rest).next fun _ rest => (.ok (.nothing .null),rest)
    else (.error (.unsupported byte),rest)

-- Every level of nesting takes a byte, so the input bounds the depth.
def readValue (input : Bytes) : Read Value := readValueAt (input.length + 1) input

def encodeCommand (args : List Bytes) : Bytes :=
  42 :: (decimal args.length ++ crlf ++ args.flatMap fun arg => 36 :: (decimal arg.length ++ crlf ++ arg ++ crlf))

-- What a server may send: the types of RESP2 and RESP3. A line type ends at the
-- first line end, a blob carries its length, an aggregate the number of its
-- items, and attributes come before the reply they belong to.
inductive LineType where
  | simpleString | error | integer | null | double | boolean | bigNumber
  deriving DecidableEq, Repr

inductive BlobType where
  | bulkString | bulkError | verbatim
  deriving DecidableEq, Repr

inductive AggregateType where
  | array | set | push | map
  deriving DecidableEq, Repr

def LineType.byte : LineType → UInt8
  | .simpleString => 43
  | .error => 45
  | .integer => 58
  | .null => 95
  | .double => 44
  | .boolean => 35
  | .bigNumber => 40

def BlobType.byte : BlobType → UInt8
  | .bulkString => 36
  | .bulkError => 33
  | .verbatim => 61

def AggregateType.byte : AggregateType → UInt8
  | .array => 42
  | .set => 126
  | .push => 62
  | .map => 37

inductive Reply where
  | line (typ : LineType) (text : Bytes) | blob (typ : BlobType) (data : Bytes) | nullBulk | nullArray
  | aggregate (typ : AggregateType) (items : List Reply) | annotated (fields : List Reply) (reply : Reply)

-- A map counts pairs.
def AggregateType.count (typ : AggregateType) (items : Nat) : Nat := if typ = .map then items / 2 else items

mutual
def encode : Reply → Bytes
  | .line typ text => typ.byte :: (text ++ crlf)
  | .blob typ data => typ.byte :: (decimal data.length ++ crlf ++ data ++ crlf)
  | .nullBulk => [36,45,49,13,10]
  | .nullArray => [42,45,49,13,10]
  | .aggregate typ items => typ.byte :: (decimal (typ.count items.length) ++ crlf ++ encodeAll items)
  | .annotated fields reply => 124 :: (decimal (fields.length / 2) ++ crlf ++ encodeAll fields ++ encode reply)

def encodeAll : List Reply → Bytes
  | [] => []
  | reply :: rest => encode reply ++ encodeAll rest
end

-- Lines have no line end in them, integers fit 64 bits, lengths fit an int and
-- pairs come in pairs. The texts of the types that no reader here takes are left
-- open.
def LineFormed : LineType → Bytes → Prop
  | .integer,text => parseInt text ≠ none
  | .null,text => text = []
  | _,text => 13 ∉ text ∧ 10 ∉ text

mutual
def WellFormed : Reply → Prop
  | .line typ text => LineFormed typ text
  | .blob _ data => data.length < 2 ^ 63
  | .nullBulk => True
  | .nullArray => True
  | .aggregate typ items => items.length < 2 ^ 63 ∧ (typ = .map → items.length % 2 = 0) ∧ AllFormed items
  | .annotated fields reply => fields.length % 2 = 0 ∧ AllFormed fields ∧ WellFormed reply

def AllFormed : List Reply → Prop
  | [] => True
  | reply :: rest => WellFormed reply ∧ AllFormed rest
end

mutual
def Supported : Reply → Prop
  | .line typ _ => typ = .simpleString ∨ typ = .error ∨ typ = .integer ∨ typ = .null
  | .blob typ _ => typ = .bulkString
  | .nullBulk => True
  | .nullArray => True
  | .aggregate typ items => typ = .array ∧ AllSupported items
  | .annotated _ _ => False

def AllSupported : List Reply → Prop
  | [] => True
  | reply :: rest => Supported reply ∧ AllSupported rest
end

mutual
def Reply.value : Reply → Value
  | .line .simpleString text => .text .simpleString text
  | .line .error text => .text .error text
  | .line .integer text => ⟨.integer,[],(parseInt text).getD 0,[],false⟩
  | .line _ _ => .nothing .null
  | .blob _ data => .text .bulkString data
  | .nullBulk => .nothing .bulkString
  | .nullArray => .nothing .array
  | .aggregate _ items => ⟨.array,[],0,allValues items,false⟩
  | .annotated _ reply => reply.value

def allValues : List Reply → List Value
  | [] => []
  | reply :: rest => reply.value :: allValues rest
end

mutual
def depth : Reply → Nat
  | .aggregate _ items => 1 + allDepth items
  | _ => 1

def allDepth : List Reply → Nat
  | [] => 0
  | reply :: rest => max (depth reply) (allDepth rest)
end

theorem parseInt_decimal (small : n < 2 ^ 63) : parseInt (decimal n) = some (Int64.ofNat n) := by
  obtain ⟨shown,digits,plain⟩ := JsonCodec.decimal_digits n
  have unsigned : (decimal n).head? ≠ some 43 := by
    obtain ⟨lead,_,shape,each,_⟩ := decimalFrom_digits (n+1) n (Nat.lt_succ_self n)
    rw [decimal,shape]
    intro plus
    have same := Option.some.inj plus
    exact absurd (same ▸ each lead List.mem_cons_self) (by decide)
  simp only [parseInt,plain,unsigned,decide_false,Bool.false_eq_true,or_self,if_false,shown,digits,value_decimal]
  rw [if_neg (by simp),if_pos (by omega)]
  rfl

theorem readLine_exact (unbroken : 10 ∉ line) (rest : Bytes) : readLine (line ++ crlf ++ rest) = (.ok line,rest) := by
  have inside : ∀ byte ∈ line ++ [13], decide (byte ≠ 10) = true := by
    intro byte member
    rcases List.mem_append.mp member with old | new
    · exact decide_eq_true fun same => unbroken (same ▸ old)
    · rw [List.mem_singleton.mp new]
      decide
  have shape : line ++ crlf ++ rest = (line ++ [13]) ++ 10 :: rest := by simp [crlf]
  have taken : ((line ++ [13]) ++ 10 :: rest).takeWhile (fun byte => decide (byte ≠ 10)) = line ++ [13] := by
    rw [List.takeWhile_append_of_pos inside]
    simp
  have dropped : ((line ++ [13]) ++ 10 :: rest).dropWhile (fun byte => decide (byte ≠ 10)) = 10 :: rest := by
    rw [List.dropWhile_append_of_pos inside]
    simp
  rw [shape]
  simp only [readLine,dropped,taken]
  simp

theorem parse_unbroken (parsed : parseInt text ≠ none) : 10 ∉ text := by
  intro member
  apply parsed
  have digits : ∀ tail : Bytes, 10 ∈ tail → tail.all digitByte = false := by
    intro tail inside
    exact List.all_eq_false.mpr ⟨10,inside,by decide⟩
  unfold parseInt
  have broken : (if decide (text.head? = some 45) = true ∨ text.head? = some 43 then text.tail else text).all
      digitByte = false := by
    split
    · rename_i signed
      cases text with
      | nil => cases member
      | cons _ rest =>
        rcases List.mem_cons.mp member with same | later
        · simp [← same] at signed
        · exact digits rest later
    · exact digits text member
  simp only [broken,or_true,if_true]

theorem readNumber_exact (parsed : parseInt line = some n) (rest : Bytes) :
    readNumber (line ++ crlf ++ rest) = (.ok n,rest) := by
  have unbroken : 10 ∉ line := parse_unbroken (by rw [parsed]; simp)
  simp only [readNumber,readLine_exact unbroken,Read.next,parsed]

theorem toInt_small (small : n < 2 ^ 63) : (Int64.ofNat n).toInt = n := Int64.toInt_ofNat_of_lt small

theorem readFull_exact (data rest : Bytes) :
    readFull (data.length + 2) (data ++ crlf ++ rest) = (.ok (data ++ crlf),rest) := by
  have sized : (data ++ crlf).length = data.length + 2 := by simp [crlf]
  rw [readFull,if_neg (by rw [List.length_append,sized]; omega),← sized,List.take_left,List.drop_left]

theorem readBulk_exact (small : data.length < 2 ^ 63) (rest : Bytes) :
    readBulk (decimal data.length ++ crlf ++ data ++ crlf ++ rest) = (.ok (.text .bulkString data),rest) := by
  have shape : decimal data.length ++ crlf ++ data ++ crlf ++ rest =
      decimal data.length ++ crlf ++ ((data ++ crlf) ++ rest) := by simp
  rw [shape,readBulk,readNumber_exact (parseInt_decimal small)]
  simp only [Read.next,toInt_small small,Int.toNat_natCast]
  rw [if_neg (by omega),if_neg (by omega),readFull_exact]
  simp

theorem readArray_counted {one : Bytes → Read Value} (small : count < 2^63) (rest : Bytes) :
    readArray one (decimal count ++ crlf ++ rest) =
      (readMany one count rest).next fun values rest => (.ok ⟨.array,[],0,values,false⟩,rest) := by
  simp only [readArray,readNumber_exact (parseInt_decimal small),Read.next,toInt_small small,Int.toNat_natCast]
  rw [if_neg (by omega),if_neg (by omega)]

theorem readMany_exact {one : Bytes → Read Value} {items : List Reply}
    (each : ∀ reply ∈ items, ∀ rest, one (encode reply ++ rest) = (.ok reply.value,rest)) (rest : Bytes) :
    readMany one items.length (encodeAll items ++ rest) = (.ok (allValues items),rest) := by
  induction items with
  | nil => rfl
  | cons _ _ ih =>
    obtain ⟨first,later⟩ := List.forall_mem_cons.mp each
    simp only [List.length_cons,readMany,encodeAll,List.append_assoc,first,Read.next,ih later,allValues]

theorem all_formed : AllFormed items ↔ ∀ reply ∈ items, WellFormed reply := by
  induction items with
  | nil => simp [AllFormed]
  | cons _ _ ih => simp [AllFormed,ih]

theorem all_supported : AllSupported items ↔ ∀ reply ∈ items, Supported reply := by
  induction items with
  | nil => simp [AllSupported]
  | cons _ _ ih => simp [AllSupported,ih]

theorem all_depth : allDepth items ≤ bound ↔ ∀ reply ∈ items, depth reply ≤ bound := by
  induction items with
  | nil => simp [allDepth]
  | cons _ _ ih => simp [allDepth,ih]

theorem depth_positive (reply : Reply) : 0 < depth reply := by
  cases reply <;> simp [depth]

theorem readValueAt_exact (fuel : Nat) : ∀ reply rest, WellFormed reply → Supported reply → depth reply ≤ fuel →
    readValueAt fuel (encode reply ++ rest) = (.ok reply.value,rest) := by
  induction fuel with
  | zero =>
    intro reply rest _ _ deep
    have := depth_positive reply
    omega
  | succ fuel ih =>
    intro reply rest formed known deep
    cases reply with
    | line _ text =>
      rcases known with rfl | rfl | rfl | rfl
      · change (readLine (text ++ crlf ++ rest)).next _ = _
        rw [readLine_exact formed.2]
        rfl
      · change (readLine (text ++ crlf ++ rest)).next _ = _
        rw [readLine_exact formed.2]
        rfl
      · obtain ⟨_,parsed⟩ := Option.ne_none_iff_exists'.mp formed
        change (readNumber (text ++ crlf ++ rest)).next _ = _
        rw [readNumber_exact parsed,Reply.value,parsed]
        rfl
      · have empty : text = [] := formed
        subst empty
        rfl
    | blob =>
      subst known
      exact readBulk_exact formed rest
    | nullBulk => rfl
    | nullArray => rfl
    | aggregate _ items =>
      rw [depth] at deep
      obtain ⟨rfl,each⟩ := known
      obtain ⟨small,_,well⟩ := formed
      have many := @readMany_exact (readValueAt fuel) items (fun reply member rest => ih reply rest
        (all_formed.mp well reply member) (all_supported.mp each reply member)
        (all_depth.mp (by omega) reply member)) rest
      change readArray (readValueAt fuel) (decimal items.length ++ crlf ++ encodeAll items ++ rest) = _
      rw [List.append_assoc (decimal items.length ++ crlf),readArray_counted small,many]
      rfl
    | annotated =>
      exact known.elim

-- A read that stops inside a reply leaves the rest of the reply unread.
def Stalls (read : Read α) (rest : Bytes) : Prop := ∃ fault left, left ≠ [] ∧ read = (.error fault,left ++ rest)

theorem readMany_stalls {one : Bytes → Read Value} {items : List Reply}
    (each : ∀ reply ∈ items, Supported reply → ∀ rest, one (encode reply ++ rest) = (.ok reply.value,rest))
    (stalls : ∀ reply ∈ items, ¬ Supported reply → ∀ rest, Stalls (one (encode reply ++ rest)) rest)
    (unknown : ¬ AllSupported items) (rest : Bytes) :
    Stalls (readMany one items.length (encodeAll items ++ rest)) rest := by
  induction items with
  | nil => exact absurd trivial unknown
  | cons reply others ih =>
    obtain ⟨first,later⟩ := List.forall_mem_cons.mp each
    obtain ⟨stop,stops⟩ := List.forall_mem_cons.mp stalls
    simp only [List.length_cons,readMany,encodeAll,List.append_assoc]
    by_cases known : Supported reply
    · have others : ¬ AllSupported others := fun all => unknown ⟨known,all⟩
      obtain ⟨fault,left,some,ran⟩ := ih later stops others
      refine ⟨fault,left,some,?_⟩
      simp only [first known,Read.next,ran]
    · obtain ⟨fault,left,some,ran⟩ := stop known (encodeAll others ++ rest)
      refine ⟨fault,left ++ encodeAll others,by simp [some],?_⟩
      simp only [ran,Read.next,List.append_assoc]

theorem readValueAt_unsupported (unknown : byte ∉ [43,45,58,36,42,95]) (rest : Bytes) :
    readValueAt (fuel+1) (byte :: rest) = (.error (.unsupported byte),rest) := by
  simp only [List.mem_cons,List.not_mem_nil,or_false,not_or] at unknown
  obtain ⟨simple,error,integer,bulk,array,null⟩ := unknown
  simp only [readValueAt,if_neg simple,if_neg error,if_neg integer,if_neg bulk,if_neg array,if_neg null]

theorem unknown_stalls {fuel : Nat} {byte : UInt8} {body : Bytes} (unknown : byte ∉ [43,45,58,36,42,95])
    (some : body ≠ []) (rest : Bytes) : Stalls (readValueAt (fuel+1) (byte :: body ++ rest)) rest :=
  ⟨.unsupported byte,body,some,readValueAt_unsupported unknown (body ++ rest)⟩

theorem readValueAt_stalls (fuel : Nat) : ∀ reply rest, WellFormed reply → ¬ Supported reply → depth reply ≤ fuel →
    Stalls (readValueAt fuel (encode reply ++ rest)) rest := by
  induction fuel with
  | zero =>
    intro reply rest _ _ deep
    have := depth_positive reply
    omega
  | succ fuel ih =>
    intro reply rest formed unknown deep
    cases reply with
    | line typ | blob typ =>
      rw [Supported] at unknown
      refine unknown_stalls ?_ (by simp [crlf]) rest
      cases typ <;> simp at unknown <;> decide
    | nullBulk | nullArray => exact absurd trivial unknown
    | aggregate typ items =>
      rw [depth] at deep
      obtain ⟨small,_,well⟩ := formed
      by_cases array : typ = .array
      · subst array
        have shallow : ∀ reply ∈ items, depth reply ≤ fuel := all_depth.mp (by omega)
        have member := all_formed.mp well
        obtain ⟨fault,left,some,ran⟩ := @readMany_stalls (readValueAt fuel) items
          (fun reply inside known rest => readValueAt_exact fuel reply rest (member reply inside) known (shallow reply inside))
          (fun reply inside strange rest => ih reply rest (member reply inside) strange (shallow reply inside))
          (fun all => unknown ⟨rfl,all⟩) rest
        refine ⟨fault,left,some,?_⟩
        change readArray (readValueAt fuel) (decimal items.length ++ crlf ++ encodeAll items ++ rest) = _
        rw [List.append_assoc (decimal items.length ++ crlf),readArray_counted small,ran]
        rfl
      · refine unknown_stalls ?_ (by simp [crlf]) rest
        cases typ <;> simp at array <;> decide
    | annotated => exact unknown_stalls (by decide) (by simp [crlf]) rest

mutual
theorem depth_length : ∀ reply : Reply, depth reply ≤ (encode reply).length
  | .line _ _ | .blob _ _ | .nullBulk | .nullArray | .annotated _ _ => by simp [depth,encode]
  | .aggregate _ items => by
    have inner := allDepth_length items
    simp only [depth,encode,List.length_cons,List.length_append]
    omega

theorem allDepth_length : ∀ items : List Reply, allDepth items ≤ (encodeAll items).length
  | [] => by simp [allDepth]
  | reply :: rest => by
    have first := depth_length reply
    have later := allDepth_length rest
    simp only [allDepth,encodeAll,List.length_append]
    omega
end

theorem depth_input (reply : Reply) (rest : Bytes) : depth reply ≤ (encode reply ++ rest).length + 1 := by
  have inside := depth_length reply
  rw [List.length_append]
  omega

theorem readValue_exact (formed : WellFormed reply) (known : Supported reply) (rest : Bytes) :
    readValue (encode reply ++ rest) = (.ok reply.value,rest) :=
  readValueAt_exact _ reply rest formed known (depth_input reply rest)

theorem readValue_stalls (formed : WellFormed reply) (unknown : ¬ Supported reply) (rest : Bytes) :
    Stalls (readValue (encode reply ++ rest)) rest :=
  readValueAt_stalls _ reply rest formed unknown (depth_input reply rest)

theorem encodeAll_bulks (args : List Bytes) : encodeAll (args.map (Reply.blob .bulkString)) =
    args.flatMap fun arg => 36 :: (decimal arg.length ++ crlf ++ arg ++ crlf) := by
  induction args with
  | nil => rfl
  | cons _ _ ih => rw [List.map_cons,encodeAll,ih,List.flatMap_cons,encode,BlobType.byte]

theorem allValues_bulks (args : List Bytes) : allValues (args.map (Reply.blob .bulkString)) =
    args.map (Value.text .bulkString) := by
  induction args with
  | nil => rfl
  | cons _ _ ih => rw [List.map_cons,allValues,ih,List.map_cons,Reply.value]

-- A command is the array of its arguments as bulk strings.
theorem encodeCommand_encode (args : List Bytes) :
    encodeCommand args = encode (.aggregate .array (args.map (Reply.blob .bulkString))) := by
  rw [encode,encodeAll_bulks,List.length_map]
  rfl

theorem command_read_back {args : List Bytes} (few : args.length < 2 ^ 63)
    (short : ∀ arg ∈ args, arg.length + 2 < 2 ^ 63) (rest : Bytes) : readValue (encodeCommand args ++ rest) =
      (.ok ⟨.array,[],0,args.map (Value.text .bulkString),false⟩,rest) := by
  have formed : AllFormed (args.map (Reply.blob .bulkString)) := by
    apply all_formed.mpr
    intro reply member
    obtain ⟨arg,there,rfl⟩ := List.mem_map.mp member
    have room := short arg there
    rw [WellFormed]
    omega
  have known : AllSupported (args.map (Reply.blob .bulkString)) := by
    apply all_supported.mpr
    intro reply member
    obtain ⟨_,_,rfl⟩ := List.mem_map.mp member
    rw [Supported]
  have whole : WellFormed (.aggregate .array (args.map (Reply.blob .bulkString))) := by
    rw [WellFormed,List.length_map]
    refine ⟨few,?_,formed⟩
    intro never
    cases never
  have read := readValue_exact whole (by rw [Supported]; exact ⟨rfl,known⟩) rest
  rw [encodeCommand_encode,read,Reply.value,allValues_bulks]

-- Payloads may hold line ends and protocol markers.
theorem broken_arguments_read_back : readValue (encodeCommand [[],[13,10],[36,49,13,10,42]] ++ [43,79]) =
    (.ok ⟨.array,[],0,[.text .bulkString [],.text .bulkString [13,10],.text .bulkString [36,49,13,10,42]],false⟩,[43,79]) :=
  command_read_back (by decide) (by decide) [43,79]

end Kronos.Resp
