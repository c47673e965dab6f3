import Kronos.Resp

namespace Kronos.RespMemory
open ByteRange Utf8 Decimal Resp

-- A length read in a bulk or an array header, the nested calls of ReadValue the
-- stack still has room for, and the bytes not received yet.
structure Header where
  bulk : Bool
  announced : Nat
  room : Nat
  left : Nat
  deriving DecidableEq, Repr

-- make([]byte, size+2), or make([]Value, 0, count) with 64 bytes for a Value.
def Header.request (header : Header) : Nat := if header.bulk then header.announced + 2 else 64 * header.announced

-- The address space of the heap: make panics above it, and so where size+2
-- wraps around.
def maxAlloc : Nat := 2 ^ 48

-- The headers read and what is returned; none is the panic of make. Lines are
-- copies of bytes received.
abbrev Run (α : Type) := List Header × Option (Read α)

def returns (read : Read α) : Run α := ([],some read)

def Run.next (run : Run α) (rest : α → Bytes → Run β) : Run β :=
  match run.2 with
  | none => (run.1,none)
  | some (.error fault,left) => (run.1,some (.error fault,left))
  | some (.ok a,left) => (run.1 ++ (rest a left).1,(rest a left).2)

def allocate (header : Header) (run : Run α) : Run α :=
  if maxAlloc < header.request then ([header],none) else (header :: run.1,run.2)

def runBulk (room : Nat) (input : Bytes) : Run Value :=
  (returns (readNumber input)).next fun size rest =>
    if size.toInt = -1 then returns (.ok (.nothing .bulkString),rest)
    else if size.toInt < -1 then returns (.error (.bulkSize size.toInt),rest)
    else allocate ⟨true,size.toInt.toNat,room,rest.length⟩
      ((returns (readFull (size.toInt.toNat + 2) rest)).next fun data rest =>
        if data.drop size.toInt.toNat ≠ crlf then returns (.error .bulkTerminator,rest)
        else returns (.ok (.text .bulkString (data.take size.toInt.toNat)),rest))

def runMany (one : Bytes → Run Value) : Nat → Bytes → Run (List Value)
  | 0,input => returns (.ok [],input)
  | count+1,input => (one input).next fun value rest =>
    (runMany one count rest).next fun values rest => returns (.ok (value :: values),rest)

def runArray (room : Nat) (one : Bytes → Run Value) (input : Bytes) : Run Value :=
  (returns (readNumber input)).next fun count rest =>
    if count.toInt = -1 then returns (.ok (.nothing .array),rest)
    else if count.toInt < -1 then returns (.error (.arraySize count.toInt),rest)
    else allocate ⟨false,count.toInt.toNat,room,rest.length⟩
      ((runMany one count.toInt.toNat rest).next fun values rest => returns (.ok ⟨.array,[],0,values,false⟩,rest))

-- A call without room on the stack overflows it.
def runValue : Nat → Bytes → Run Value
  | 0,input => returns (.error .stackOverflow,input)
  | room+1,input =>
    if input.head? = some 36 then runBulk room input.tail
    else if input.head? = some 42 then runArray room (runValue room) input.tail
    else returns (readValueAt (room+1) input)

def Stands (read : Read α) : Prop :=
  match read.1 with
  | .error fault => fault ≠ .stackOverflow
  | .ok _ => True

def Header.Nests (header : Header) : Prop := header.bulk = true ∨ header.announced = 0 ∨ 0 < header.room

def Header.Fits (header : Header) : Prop := header.request ≤ maxAlloc ∧ header.Nests

-- Headers that fit are enough for the plain reader's result and needed for any.
structure Sound (run : Run α) (read : Read α) : Prop where
  fit : (∀ header ∈ run.1, header.Fits) → run.2 = some read ∧ Stands read
  back : ∀ got, run.2 = some got → Stands got → ∀ header ∈ run.1, header.Fits

theorem sound_returns {read : Read α} (stands : Stands read) : Sound (returns read) read :=
  ⟨fun _ => ⟨rfl,stands⟩,fun _ _ _ _ member => absurd member List.not_mem_nil⟩

theorem sound_next {read : Read α} {rest : α → Bytes → Run β} {next : α → Bytes → Read β} (sound : Sound run read)
    (later : ∀ a left, Sound (rest a left) (next a left)) : Sound (run.next rest) (read.next next) := by
  obtain ⟨_,result⟩ := run
  cases result with
  | none => exact ⟨fun fits => absurd (sound.fit fits).1 nofun,nofun⟩
  | some got =>
    obtain ⟨answer,left⟩ := got
    cases answer with
    | error =>
      refine ⟨fun fits => ?_,fun got same stands => ?_⟩
      · obtain ⟨same,stands⟩ := sound.fit fits
        obtain rfl := Option.some.inj same
        exact ⟨rfl,stands⟩
      · obtain rfl := Option.some.inj same
        exact sound.back _ rfl stands
    | ok a =>
      refine ⟨fun fits => ?_,fun got same stands => ?_⟩
      · obtain ⟨both,after⟩ := List.forall_mem_append.mp fits
        obtain rfl := Option.some.inj (sound.fit both).1
        exact (later a left).fit after
      · exact List.forall_mem_append.mpr ⟨sound.back _ rfl trivial,(later a left).back got same stands⟩

theorem sound_allocate {read : Read α} (sound : header.Nests → Sound run read)
    (deep : ¬ header.Nests → ∀ got, run.2 = some got → ¬ Stands got) : Sound (allocate header run) read := by
  rw [allocate]
  split
  · rename_i large
    exact ⟨fun fits => absurd (fits header List.mem_cons_self).1 (Nat.not_le.mpr large),nofun⟩
  · rename_i small
    refine ⟨fun fits => ?_,fun got same stands => ?_⟩
    · obtain ⟨⟨_,nests⟩,others⟩ := List.forall_mem_cons.mp fits
      exact (sound nests).fit others
    · have nests : header.Nests := by
        apply Classical.byContradiction
        intro flat
        exact deep flat got same stands
      exact List.forall_mem_cons.mpr ⟨⟨Nat.not_lt.mp small,nests⟩,(sound nests).back got same stands⟩

theorem stands_next {read : Read α} {rest : α → Bytes → Read β} (stands : Stands read)
    (later : ∀ a left, Stands (rest a left)) : Stands (read.next rest) := by
  obtain ⟨_ | a,left⟩ := read
  · exact stands
  · exact later a left

theorem stands_line (input : Bytes) : Stands (readLine input) := by
  rw [readLine]
  split
  · simp [Stands]
  · dsimp only
    split <;> simp [Stands]

theorem stands_number (input : Bytes) : Stands (readNumber input) := by
  refine stands_next (stands_line input) (fun line left => ?_)
  split <;> simp [Stands]

theorem stands_full (size : Nat) (input : Bytes) : Stands (readFull size input) := by
  rw [readFull]
  split <;> simp [Stands]

theorem stands_simple {room : Nat} (bulk : input.head? ≠ some 36) (array : input.head? ≠ some 42) :
    Stands (readValueAt (room+1) input) := by
  have line {f : Bytes → Value} {rest : Bytes} :
      Stands ((readLine rest).next fun line rest => ((.ok (f line),rest) : Read Value)) :=
    stands_next (stands_line rest) fun _ _ => trivial
  cases input with
  | nil => simp [readValueAt,Stands]
  | cons _ rest =>
    rw [readValueAt]
    split
    · exact line
    · split
      · exact line
      · split
        · exact stands_next (stands_number rest) fun _ _ => trivial
        · rw [if_neg (fun same => bulk (congrArg some same)),if_neg (fun same => array (congrArg some same))]
          split
          · exact line
          · simp [Stands]

theorem runBulk_sound (room : Nat) (input : Bytes) : Sound (runBulk room input) (readBulk input) := by
  refine sound_next (sound_returns (stands_number input)) (fun size rest => ?_)
  split
  · exact sound_returns trivial
  · split
    · exact sound_returns nofun
    · refine sound_allocate (fun _ => ?_) (fun flat => absurd (.inl rfl) flat)
      refine sound_next (sound_returns (stands_full _ rest)) (fun data rest => ?_)
      split
      · exact sound_returns nofun
      · exact sound_returns trivial

theorem runMany_sound {one : Bytes → Run Value} {plain : Bytes → Read Value}
    (sound : ∀ input, Sound (one input) (plain input)) (count : Nat) (input : Bytes) :
    Sound (runMany one count input) (readMany plain count input) := by
  induction count generalizing input with
  | zero => exact sound_returns trivial
  | succ _ ih =>
    exact sound_next (sound input) fun value rest => sound_next (ih rest) fun _ _ => sound_returns trivial

theorem runValue_sound (room : Nat) (input : Bytes) : Sound (runValue (room+1) input) (readValueAt (room+1) input) := by
  induction room using Nat.strong_induction_on generalizing input with
  | h room ih =>
    rw [runValue]
    cases input with
    | nil => exact sound_returns nofun
    | cons byte rest =>
      split
      · rename_i bulk
        obtain rfl := Option.some.inj bulk
        exact runBulk_sound room rest
      · split
        · rename_i array
          obtain rfl := Option.some.inj array
          refine sound_next (sound_returns (stands_number rest)) (fun count left => ?_)
          split
          · exact sound_returns trivial
          · split
            · exact sound_returns nofun
            · refine sound_allocate (fun nests => ?_) (fun flat got same => ?_)
              · refine sound_next ?_ fun _ _ => sound_returns trivial
                rcases nests with impossible | none | deep
                · cases impossible
                · rw [show count.toInt.toNat = 0 from none]
                  exact sound_returns trivial
                · obtain ⟨room,rfl⟩ : ∃ less, room = less + 1 := Nat.exists_eq_succ_of_ne_zero (Nat.ne_of_gt deep)
                  exact runMany_sound (ih room (by omega)) _ left
              · -- The first item is called without room.
                obtain ⟨items,more⟩ : ∃ less, count.toInt.toNat = less + 1 :=
                  Nat.exists_eq_succ_of_ne_zero fun none => flat (.inr (.inl none))
                obtain rfl : room = 0 := Nat.eq_zero_of_not_pos fun deep => flat (.inr (.inr deep))
                rw [more] at same
                obtain rfl := Option.some.inj same
                exact fun stands => stands rfl
        · rename_i bulk array
          exact sound_returns (stands_simple bulk array)

-- A number on a line of its own, and what follows it.
def Number (input : Bytes) (n : Int) (rest : Bytes) : Prop :=
  ∃ line k, input = line ++ crlf ++ rest ∧ parseInt line = some k ∧ k.toInt = n

inductive Many (one : Bytes → Bytes → Prop) : Nat → Bytes → Bytes → Prop
  | none (input : Bytes) : Many one 0 input input
  | more {count : Nat} {input left rest : Bytes} : one input left → Many one count left rest →
      Many one (count+1) input rest

-- The bytes of a value, with the ones that follow; the items of an array are values
-- too.
inductive Form (item : Bytes → Bytes → Prop) : Bytes → Bytes → Prop
  | line {byte : UInt8} {line rest : Bytes} : byte ∈ [43,45,95] → 10 ∉ line →
      Form item (byte :: (line ++ crlf ++ rest)) rest
  | integer {text : Bytes} {n : Int} {rest : Bytes} : Number text n rest → Form item (58 :: text) rest
  | nothing {byte : UInt8} {text rest : Bytes} : byte ∈ [36,42] → Number text (-1) rest → Form item (byte :: text) rest
  | bulk {text data rest : Bytes} : Number text data.length (data ++ crlf ++ rest) → Form item (36 :: text) rest
  | array {text items rest : Bytes} {count : Nat} : Number text count items → Many item count items rest →
      Form item (42 :: text) rest

-- Nested no deeper than the stack has room for.
def Whole : Nat → Bytes → Bytes → Prop
  | 0 => fun _ _ => False
  | room+1 => Form (Whole room)

-- The headers of an input: the one it begins with, and those of the items of an
-- array that come after whole ones.
inductive Announced : Nat → Bytes → Header → Prop
  | bulk {room size : Nat} {text rest : Bytes} : Number text size rest →
      Announced (room+1) (36 :: text) ⟨true,size,room,rest.length⟩
  | array {room count : Nat} {text rest : Bytes} : Number text count rest →
      Announced (room+1) (42 :: text) ⟨false,count,room,rest.length⟩
  | item {room count before : Nat} {text rest later : Bytes} {header : Header} : Number text count rest →
      before < count → Many (Whole room) before rest later → Announced room later header →
        Announced (room+1) (42 :: text) header

theorem readLine_iff : readLine input = (.ok line,rest) ↔ input = line ++ crlf ++ rest ∧ 10 ∉ line := by
  constructor
  · intro read
    have parts := List.takeWhile_append_dropWhile (p := fun byte => decide (byte ≠ 10)) (l := input)
    rw [readLine] at read
    cases left : input.dropWhile (fun byte => decide (byte ≠ 10)) with
    | nil =>
      rw [left] at read
      cases read
    | cons byte after =>
      rw [left] at read parts
      dsimp only at read
      split at read
      · rename_i ends
        have newline : byte = 10 := by
          have head := List.head?_dropWhile_not (fun byte => decide (byte ≠ 10)) input
          rw [left] at head
          simpa using head
        obtain ⟨front,same⟩ := List.getLast?_eq_some_iff.mp ends
        rw [same] at read parts
        cases read
        refine ⟨by rw [← parts,newline]; simp [crlf],?_⟩
        intro member
        have inside := List.mem_takeWhile_imp (same ▸ List.mem_append_left _ (by simpa using member))
        simp at inside
      · cases read
  · rintro ⟨rfl,unbroken⟩
    exact readLine_exact unbroken rest

-- A read that returns, and what it leaves.
def Ends (read : Read α) (rest : Bytes) : Prop := ∃ a, read = (.ok a,rest)

@[simp] theorem ends_ok : Ends ((.ok a,left) : Read α) rest ↔ left = rest := by simp [Ends]

@[simp] theorem ends_error : ¬ Ends ((.error fault,left) : Read α) rest := by simp [Ends]

theorem ends_next {read : Read α} {after : α → Bytes → Read β} : Ends (read.next after) rest ↔
    ∃ a left, read = (.ok a,left) ∧ Ends (after a left) rest := by
  obtain ⟨_ | a,left⟩ := read
  · simp [Read.next]
  · simp [Read.next]

theorem readNumber_iff : (∃ k, readNumber input = (.ok k,rest) ∧ k.toInt = n) ↔ Number input n rest := by
  constructor
  · rintro ⟨k,read,same⟩
    rw [readNumber] at read
    cases isLine : readLine input with
    | mk result left =>
      rw [isLine] at read
      cases result with
      | error => cases read
      | ok line =>
        dsimp only [Read.next] at read
        split at read
        · cases read
        · rename_i parsed
          cases read
          exact ⟨line,k,(readLine_iff.mp isLine).1,parsed,same⟩
  · rintro ⟨line,k,rfl,parsed,same⟩
    exact ⟨k,readNumber_exact parsed rest,same⟩

-- What a bulk and an array begin with.
theorem counted_iff {fault : Int64 → ReadFault} {body : Int64 → Bytes → Read Value} :
    Ends ((readNumber text).next fun n left => if n.toInt = -1 then (.ok nothing,left)
      else if n.toInt < -1 then (.error (fault n),left) else body n left) rest ↔
    Number text (-1) rest ∨
      ∃ n left, readNumber text = (.ok n,left) ∧ 0 ≤ n.toInt ∧ Ends (body n left) rest := by
  rw [ends_next]
  constructor
  · rintro ⟨n,left,number,ends⟩
    split at ends
    · rename_i none
      obtain rfl := ends_ok.mp ends
      exact .inl (readNumber_iff.mp ⟨n,number,none⟩)
    · split at ends
      · exact absurd ends ends_error
      · exact .inr ⟨n,left,number,by omega,ends⟩
  · rintro (none | ⟨n,left,number,counts,ends⟩)
    · obtain ⟨n,number,none⟩ := readNumber_iff.mpr none
      exact ⟨n,rest,number,by rw [if_pos none]; exact ends_ok.mpr rfl⟩
    · exact ⟨n,left,number,by rwa [if_neg (by omega),if_neg (by omega)]⟩

theorem readBulk_iff : Ends (readBulk text) rest ↔
    Number text (-1) rest ∨ ∃ data : Bytes, Number text data.length (data ++ crlf ++ rest) := by
  unfold readBulk
  refine counted_iff.trans (or_congr_right ?_)
  constructor
  · rintro ⟨n,left,number,counts,ends⟩
    obtain ⟨data,after,full,ends⟩ := ends_next.mp ends
    rw [readFull] at full
    split at full
    · cases full
    · rename_i enough
      cases full
      split at ends
      · exact absurd ends ends_error
      · rename_i last
        obtain rfl := ends_ok.mp ends
        rw [Decidable.not_not,List.drop_take,Nat.add_sub_cancel_left] at last
        refine ⟨left.take n.toInt.toNat,readNumber_iff.mp ⟨n,?_,?_⟩⟩
        · rwa [← last,List.append_assoc,← List.drop_drop,List.take_append_drop,List.take_append_drop]
        · rw [List.length_take]
          omega
  · rintro ⟨data,number⟩
    obtain ⟨n,number,size⟩ := readNumber_iff.mpr number
    refine ⟨n,_,number,by omega,ends_next.mpr ⟨data ++ crlf,rest,?_,by simp [size]⟩⟩
    rw [size,Int.toNat_natCast,readFull_exact]

theorem readMany_iff {one : Bytes → Read Value} :
    Ends (readMany one count input) rest ↔ Many (fun input => Ends (one input)) count input rest := by
  induction count generalizing input with
  | zero =>
    rw [readMany,ends_ok]
    constructor
    · rintro rfl
      exact .none input
    · intro many
      cases many
      rfl
  | succ _ ih =>
    rw [readMany,ends_next]
    constructor
    · rintro ⟨value,left,first,ends⟩
      obtain ⟨values,last,others,ends⟩ := ends_next.mp ends
      obtain rfl := ends_ok.mp ends
      exact .more ⟨value,first⟩ (ih.mp ⟨values,others⟩)
    · intro many
      cases many with
      | more first others =>
        obtain ⟨value,first⟩ := first
        obtain ⟨values,others⟩ := ih.mpr others
        exact ⟨value,_,first,ends_next.mpr ⟨values,_,others,ends_ok.mpr rfl⟩⟩

theorem readArray_iff {one : Bytes → Read Value} : Ends (readArray one text) rest ↔ Number text (-1) rest ∨
    ∃ (count : Nat) (items : Bytes), Number text count items ∧ Many (fun input => Ends (one input)) count items rest := by
  unfold readArray
  refine counted_iff.trans (or_congr_right ?_)
  constructor
  · rintro ⟨n,items,number,counts,ends⟩
    obtain ⟨values,left,many,ends⟩ := ends_next.mp ends
    obtain rfl := ends_ok.mp ends
    exact ⟨n.toInt.toNat,items,readNumber_iff.mp ⟨n,number,by omega⟩,readMany_iff.mp ⟨values,many⟩⟩
  · rintro ⟨count,items,number,many⟩
    obtain ⟨n,number,same⟩ := readNumber_iff.mpr number
    obtain ⟨values,many⟩ := readMany_iff.mpr many
    refine ⟨n,items,number,by omega,ends_next.mpr ⟨values,rest,?_,ends_ok.mpr rfl⟩⟩
    rwa [same,Int.toNat_natCast]

theorem ends_line {f : Bytes → Value} : Ends ((readLine text).next fun line left => (.ok (f line),left)) rest ↔
    ∃ line, text = line ++ crlf ++ rest ∧ 10 ∉ line := by
  rw [ends_next]
  constructor
  · rintro ⟨line,left,read,ends⟩
    obtain rfl := ends_ok.mp ends
    exact ⟨line,readLine_iff.mp read⟩
  · rintro ⟨line,read⟩
    exact ⟨line,rest,readLine_iff.mpr read,ends_ok.mpr rfl⟩

theorem form_iff {room : Nat} : Form (fun input => Ends (readValueAt room input)) input rest ↔
    Ends (readValueAt (room+1) input) rest := by
  constructor
  · intro form
    cases form with
    | line known unbroken =>
      simp only [List.mem_cons,List.not_mem_nil,or_false] at known
      rcases known with rfl | rfl | rfl
      · exact ends_line.mpr ⟨_,rfl,unbroken⟩
      · exact ends_line.mpr ⟨_,rfl,unbroken⟩
      · exact ends_line.mpr ⟨_,rfl,unbroken⟩
    | integer number =>
      obtain ⟨k,number,_⟩ := readNumber_iff.mpr number
      exact ends_next.mpr ⟨k,rest,number,ends_ok.mpr rfl⟩
    | nothing known number =>
      simp only [List.mem_cons,List.not_mem_nil,or_false] at known
      rcases known with rfl | rfl
      · exact readBulk_iff.mpr (.inl number)
      · exact readArray_iff.mpr (.inl number)
    | bulk number => exact readBulk_iff.mpr (.inr ⟨_,number⟩)
    | array number many => exact readArray_iff.mpr (.inr ⟨_,_,number,many⟩)
  · intro ends
    cases input with
    | nil => exact absurd ends ends_error
    | cons byte text =>
      by_cases known : byte ∈ [43,45,58,36,42,95]
      · simp only [List.mem_cons,List.not_mem_nil,or_false] at known
        rcases known with rfl | rfl | rfl | rfl | rfl | rfl
        · obtain ⟨_,rfl,unbroken⟩ := ends_line.mp ends
          exact .line (by simp) unbroken
        · obtain ⟨_,rfl,unbroken⟩ := ends_line.mp ends
          exact .line (by simp) unbroken
        · obtain ⟨n,_,number,ends⟩ := ends_next.mp ends
          obtain rfl := ends_ok.mp ends
          exact .integer (readNumber_iff.mp ⟨n,number,rfl⟩)
        · rcases readBulk_iff.mp ends with number | ⟨_,number⟩
          · exact .nothing (by simp) number
          · exact .bulk number
        · rcases readArray_iff.mp ends with number | ⟨_,_,number,many⟩
          · exact .nothing (by simp) number
          · exact .array number many
        · obtain ⟨_,rfl,unbroken⟩ := ends_line.mp ends
          exact .line (by simp) unbroken
      · rw [readValueAt_unsupported known] at ends
        exact absurd ends ends_error

theorem whole_iff (room : Nat) : Whole room = fun input => Ends (readValueAt room input) := by
  induction room with
  | zero =>
    funext input rest
    exact propext ⟨False.elim,ends_error⟩
  | succ room ih =>
    funext input rest
    rw [Whole,ih]
    exact propext form_iff

section
variable {P : Header → Prop}

theorem next_traced {run : Run α} {after : α → Bytes → Run β} : (∀ header ∈ (run.next after).1, P header) ↔
    (∀ header ∈ run.1, P header) ∧ ∀ a left, run.2 = some (.ok a,left) → ∀ header ∈ (after a left).1, P header := by
  obtain ⟨_,_ | ⟨_ | a,left⟩⟩ := run
  · simp [Run.next]
  · simp [Run.next]
  · rw [Run.next,List.forall_mem_append]
    simp

theorem allocate_traced {run : Run α} (fits : P start → start.request ≤ maxAlloc) :
    (∀ header ∈ (allocate start run).1, P header) ↔ P start ∧ ∀ header ∈ run.1, P header := by
  rw [allocate]
  split
  · rename_i large
    rw [List.forall_mem_singleton]
    exact ⟨fun some => absurd (fits some) (Nat.not_le.mpr large),And.left⟩
  · exact List.forall_mem_cons

theorem counted_traced {fault : Int64 → ReadFault} {start : Int64 → Bytes → Header} {body : Int64 → Bytes → Run Value}
    (fits : ∀ header, P header → header.request ≤ maxAlloc) :
    (∀ header ∈ ((returns (readNumber text)).next fun n left => if n.toInt = -1 then returns (.ok nothing,left)
      else if n.toInt < -1 then returns (.error (fault n),left) else allocate (start n left) (body n left)).1, P header) ↔
    ∀ n left, readNumber text = (.ok n,left) → 0 ≤ n.toInt →
      P (start n left) ∧ ∀ header ∈ (body n left).1, P header := by
  rw [next_traced]
  constructor
  · rintro ⟨_,after⟩ n left number counts
    have traced := after n left (congrArg some number)
    rw [if_neg (by omega),if_neg (by omega)] at traced
    exact (allocate_traced (fits _)).mp traced
  · intro counted
    refine ⟨fun _ member => absurd member List.not_mem_nil,fun n left read => ?_⟩
    split
    · exact fun _ member => absurd member List.not_mem_nil
    · split
      · exact fun _ member => absurd member List.not_mem_nil
      · exact (allocate_traced (fits _)).mpr (counted n left (Option.some.inj read) (by omega))

theorem many_traced {one : Bytes → Run Value} {plain : Bytes → Read Value} {within : Bytes → Header → Prop}
    (traced : ∀ input, (∀ header ∈ (one input).1, P header) ↔ ∀ header, within input header → P header)
    (ran : ∀ input, (∀ header ∈ (one input).1, P header) → (one input).2 = some (plain input)) (count : Nat)
    (input : Bytes) : (∀ header ∈ (runMany one count input).1, P header) ↔ ∀ before < count, ∀ later,
      Many (fun input => Ends (plain input)) before input later → ∀ header, within later header → P header := by
  induction count generalizing input with
  | zero => simp [runMany,returns]
  | succ count ih =>
    have items (left : Bytes) (value : Value) : (∀ header ∈ ((runMany one count left).next fun values left =>
        returns (.ok (value :: values),left)).1, P header) ↔ ∀ header ∈ (runMany one count left).1, P header := by
      rw [next_traced]
      simp [returns]
    rw [runMany,next_traced]
    simp only [items]
    constructor
    · rintro ⟨first,others⟩ before less later many
      cases many with
      | none => exact (traced input).mp first
      | more same many =>
        obtain ⟨value,same⟩ := same
        exact (ih _).mp (others value _ (same ▸ ran input first)) _ (Nat.lt_of_succ_lt_succ less) later many
    · intro all
      have first := (traced input).mpr (all 0 (Nat.succ_pos count) input (.none input))
      refine ⟨first,fun value left same => (ih left).mpr fun before less later many => ?_⟩
      exact all (before+1) (Nat.succ_lt_succ less) later
        (.more ⟨value,Option.some.inj ((ran input first).symm.trans same)⟩ many)

theorem bulk_traced (fits : ∀ header, P header → header.request ≤ maxAlloc) :
    (∀ header ∈ (runBulk room text).1, P header) ↔
      ∀ header, Announced (room+1) (36 :: text) header → P header := by
  unfold runBulk
  refine (counted_traced fits).trans ⟨fun counted header announced => ?_,fun all n left number counts => ?_⟩
  · cases announced with
    | bulk number =>
      obtain ⟨n,number,same⟩ := readNumber_iff.mpr number
      have first := (counted n _ number (by omega)).1
      rwa [same,Int.toNat_natCast] at first
  · refine ⟨all _ (.bulk (readNumber_iff.mp ⟨n,number,by omega⟩)),next_traced.mpr ⟨?_,fun data rest _ => ?_⟩⟩
    · exact fun _ member => absurd member List.not_mem_nil
    · split <;> exact fun _ member => absurd member List.not_mem_nil

theorem array_traced (fits : ∀ header, P header → header.request ≤ maxAlloc)
    (traced : ∀ input, (∀ header ∈ (runValue room input).1, P header) ↔
      ∀ header, Announced room input header → P header)
    (ran : ∀ input, (∀ header ∈ (runValue room input).1, P header) →
      (runValue room input).2 = some (readValueAt room input)) :
    (∀ header ∈ (runArray room (runValue room) text).1, P header) ↔
      ∀ header, Announced (room+1) (42 :: text) header → P header := by
  have items (n : Int64) (left : Bytes) : (∀ header ∈ ((runMany (runValue room) n.toInt.toNat left).next
      fun values left => returns (.ok (⟨.array,[],0,values,false⟩ : Value),left)).1, P header) ↔
      ∀ before < n.toInt.toNat, ∀ later, Many (Whole room) before left later →
        ∀ header, Announced room later header → P header := by
    rw [next_traced,whole_iff,many_traced traced ran]
    simp [returns]
  unfold runArray
  refine (counted_traced fits).trans ⟨fun counted header announced => ?_,fun all n left number counts => ?_⟩
  · cases announced with
    | array number =>
      obtain ⟨n,number,same⟩ := readNumber_iff.mpr number
      have first := (counted n _ number (by omega)).1
      rwa [same,Int.toNat_natCast] at first
    | item number less many later =>
      obtain ⟨n,number,same⟩ := readNumber_iff.mpr number
      exact (items n _).mp (counted n _ number (by omega)).2 _ (by omega) _ many header later
  · have number := readNumber_iff.mp ⟨n,number,(Int.toNat_of_nonneg counts).symm⟩
    refine ⟨all _ (.array number),(items n left).mpr fun before less later many header announced => ?_⟩
    exact all header (.item number less many announced)

theorem announced_traced (fits : ∀ header, P header → header.Fits) (room : Nat) (input : Bytes) :
    (∀ header ∈ (runValue room input).1, P header) ↔ ∀ header, Announced room input header → P header := by
  induction room generalizing input with
  | zero =>
    refine ⟨fun _ header announced => ?_,fun _ _ member => absurd member List.not_mem_nil⟩
    cases announced
  | succ room ih =>
    have asked := fun header some => (fits header some).1
    rw [runValue]
    split
    · rename_i bulk
      obtain ⟨text,rfl⟩ := List.head?_eq_some_iff.mp bulk
      exact bulk_traced asked
    · split
      · rename_i array
        obtain ⟨text,rfl⟩ := List.head?_eq_some_iff.mp array
        refine array_traced asked ih fun input all => ?_
        cases room with
        | zero => rfl
        | succ room => exact ((runValue_sound room input).fit fun header member => fits header (all header member)).1
      · rename_i bulk array
        refine ⟨fun _ header announced => ?_,fun _ _ member => absurd member List.not_mem_nil⟩
        cases announced with
        | bulk => exact absurd rfl bulk
        | array => exact absurd rfl array
        | item => exact absurd rfl array

end

theorem read_safe_iff (room constant factor : Nat) (input : Bytes) :
    (∃ read, (runValue (room+1) input).2 = some read ∧ Stands read) ∧
        (∀ header ∈ (runValue (room+1) input).1,
          header.request ≤ constant + factor * (input.length - header.left)) ↔
      ∀ header, Announced (room+1) input header → header.Nests ∧
        header.request ≤ min maxAlloc (constant + factor * (input.length - header.left)) := by
  have sound := runValue_sound room input
  rw [← announced_traced (fun header some => ⟨(Nat.le_min.mp some.2).1,some.1⟩)]
  constructor
  · rintro ⟨⟨read,returned,stands⟩,bounded⟩ header member
    obtain ⟨small,nests⟩ := sound.back read returned stands header member
    exact ⟨nests,Nat.le_min.mpr ⟨small,bounded header member⟩⟩
  · intro fits
    refine ⟨⟨_,sound.fit fun header member => ?_⟩,fun header member => (Nat.le_min.mp (fits header member).2).2⟩
    exact ⟨(Nat.le_min.mp (fits header member).2).1,(fits header member).1⟩

theorem largest_bulk_panics : (runValue 1 (ascii "$9223372036854775807\r\n")).2 = none := by decide +kernel

end Kronos.RespMemory
