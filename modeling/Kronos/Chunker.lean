import Kronos.ByteRange

namespace Kronos.Chunker
open ByteRange

-- The rolling hash's constants. The array has 256 places and the source writes
-- 180 of them: a byte from 180 on adds zero.
def gearTable : List UInt64 := [
  0x3da2d746e143c8b7,0xb4d12f1a6c96a55f,0x7f6ad3c8d9e73a19,0x1c9f125e42b1d897,
  0x9028c33b0a95d4dd,0x6ce0890f2f61f4ab,0xdd0e3f63b2a56c4d,0x48e7c0a37fbb2f11,
  0x07a4b7d92763f5e3,0xe7f2d15c34981a0f,0x5f9172e0c9d8b2a7,0xa8ce31f719406d5b,
  0x2c014b879a64d3ef,0xca37e8f5b0129d43,0x81f49a6c2d7e05b1,0x19e5d3a8f607bc4f,
  0xf1a6540c98b2e73d,0x6a30d2bf4c8915e7,0x4379e1a5bdc0682f,0xc0927f6b4d3a81e5,
  0x2fa18c7e934bd560,0xb7d40359e81a6c2f,0x74be2d19c60f8a35,0x0de6f8492c5173ab,
  0x9a58b3e1d7420fc6,0x51c73f0e8a29d4b5,0xe36d9b1257a0c84f,0x3b0f5a6c91d2e748,
  0xac852e1f6b49d307,0x65d7c3a84f109b2e,0x0f2b8d94e751c6a3,0xd94017b6c85e2f3a,
  0x8c1f63a0d2b7e945,0x14d9e27b6f50a3c8,0xf605c9a12e3b47d8,0x6b7a30d4c981f25e,
  0x20e8b5f73c16d49a,0xb3160a8e4d7c95f2,0x7dc5e92a0f48b631,0x04a6f3d91b7e2c85,
  0x9f73c0d48b251ae6,0x56a1e8b03d9c742f,0xe0c49f715a2d8b36,0x3d7b2e0c96f1a548,
  0xa713d58e402f9c6b,0x6ef02b947c1a35d8,0x078d4c3bfa6192e5,0xd2b96e1f508a4c73,
  0x8a40f7c2d31e9b56,0x12e5a8b7c06d3f94,0xf84c317e9a25d60b,0x617e0db593c8a24f,
  0x2b95c6f01e7d438a,0xb0e3a74d8f215c96,0x79c12f6a30d4e8b5,0x0176d9c48b3e5a2f,
  0x9c2a4f81d7e063b5,0x54f8b1c62d0e9a37,0xeb0d639f27a4c185,0x35a7e2d90f6b4c81,
  0xa0c516f8b43d7e92,0x68f3d0a5c91e2b47,0x0b4e97c2f51a6d38,0xd7c0a35e8b249f61,
  0x83f6b14d0e7a29c5,0x1e2d8c7b504fa693,0xf3a90e6c2b7d4518,0x6d481f95c0e3a7b2,
  0x25f0c7a91d4e83b6,0xbd6a12e50f9c7348,0x7043d8f6a1b92c5e,0x0a9b5e37c2f0d614,
  0x9517c4e0b86a3d2f,0x5dca2f7194e06b38,0xe945b0c68f3d1a27,0x30f7a1d5c29e846b,
  0xab2e6c03f8d49175,0x6390d7b41e5a2fc8,0x09c81f6e35a7d204,0xd40f73a9c25e81b6,
  0x8e73d1b604f9a25c,0x16b5a8e2d70c3f91,0xfb2c0d69a84f1735,0x6381e4b7c0d29f5a,
  0x2d5a9c10e7b63f84,0xb62f71d8a3c04e95,0x7e91c43f0a6d25b8,0x06d3b8a59f4c710e,
  0x91e0c62a7d3b58f4,0x59a4f1d8c70e2b63,0xe27d06b3f9a14c58,0x3ac9e5f0176b2d84,
  0xa5f14b7e302c9d68,0x6f3c90a5d8e2174b,0x0875e2c1b69f4a30,0xd1a46f8b03c9e572,
  0x8b29f0d74e1a63c5,0x13c6a95e20f7d4b8,0xfc0e3b71a6d24985,0x64b7d8a30f1e95c2,
  0x2f0c85d6b31a7e49,0xb8174a93e0d6c25f,0x73d9e2b0f64c1a85,0x0c5e71a8d3f902b6,
  0x97a3d0e54c8b216f,0x5e1f8c72b0a6d493,0xe6c40b9f351a7d28,0x31b7f2d08e6c954a,
  0xa9d05c7e138b6f24,0x629e3a0fb5d7c841,0x0e4b81c6d2f07a95,0xd6f39a14c82e70b5,
  0x80a7e5d13f4c9b62,0x18f2b6c90d7a43e5,0xf5c81e3a62b7d094,0x6c4d90f7b1e32a85,
  0x24e7b3c01d9f586a,0xbe1a6d94c3f02758,0x76c5f018a9d3e42b,0x00f48b6d27c9a531,
  0x9b6e20d5f8a1437c,0x53a1d7c40e9f6b82,0xec7b3901a5d84f26,0x34d0e6b7c19a258f,
  0xaf08c3d5e7419b62,0x67b52f0a9e3d8c41,0x0d1f84c6b72a935e,0xd8e3a7094c1f6b25,
  0x826f1d95e0b4c73a,0x1a94c8b30f6d2e57,0xf02b7e51d8a3c694,0x6a5d0f83c1e7b249,
  0x22c9a6f07d3b5e81,0xba704d1e95c2f638,0x75e2b90c4f18a6d3,0x0f8a37d6b1c5e204,
  0x90d4f16b8a35c7e2,0x58b0a7e3d29f4c61,0xe1f6930d5c87a24b,0x3c85d2f0a64e1b79,
  0xa6137e9c20d5f84b,0x6ed8a40f7b1c9352,0x074c1f96d3e8b25a,0xd3a50e7b29c6f814,
  0x8d7e2b04f1a693c5,0x1543c9f6a0d72e8b,0xf9d6a107c4e82b35,0x613b8e5d20f7a4c9,
  0x2a8f13c7e5d0b694,0xb42d7a90c6f1385e,0x7c61e4b309a5d2f8,0x05b7c2e8f0149a6d,
  0x9e0a6f35d8b2c741,0x55c3d9187e0f4a6b,0xe873a5c02d9f1b46,0x32f1b70e6c4d95a8,
  0xad4c890f2e7b1365,0x6540f7d3a9c18e2b,0x0a2e6b91d4f8c573,0xd5b7c40e8a2f1963,
  0x8f1a53d7c0e6b924,0x17e6c92b4f0a3d85,0xfa3d0b6e91c7f258,0x62c814f7a30d9e5b,
  0x2c75e0a6d9b31f84,0xb5f03c8a1e7d2496,0x7f2a6d91c4e0b538,0x08d5b3f70a6c1e49,
  0x93c0e51a7f4d86b2,0x5b6d28f0c3a91e74,0xe4a1c7d53f0b6892,0x3f0e92b6d8a45c17,
  0xa8b5d31f6c0e9472,0x60f79a42d5c81e3b,0x0c3a81e6b7d40f95,0xd7e0b51c9a3f6824,
  0x81c49f7a20e6d35b,0x19a7e3d0f58b4c26,0xf4e2196b83c0d75a,0x6e0b5c37a1f8d294]

def gear (byte : UInt8) : UInt64 := gearTable.getD byte.toNat 0

structure FastCDC where
  minSize : Nat
  avgSize : Nat
  maxSize : Nat
  positive : 0 < minSize
  average : minSize ≤ avgSize
  maximum : avgSize ≤ maxSize

def newDefaultFastCDC : FastCDC :=
  ⟨512 * 1024,2 * 1024 * 1024,8 * 1024 * 1024,by decide,by decide,by decide⟩

-- How often one doubles until it reaches the average. The buffer of maxSize
-- bytes is allocated, so the average is below 2^62 and the doubling in an int
-- does not overflow.
def doublings (avg : Nat) : Nat → Nat → Nat
  | 0,_ => 0
  | fuel + 1,size => if size < avg then doublings avg fuel (2 * size) + 1 else 0

def maskForAverage (avg : Nat) : UInt64 :=
  let bits := doublings avg 63 1
  if bits = 0 then 0 else (1 <<< bits.toUInt64) - 1

inductive ReadError
  | eof | failed (message : Bytes)
  deriving DecidableEq

-- One result of Read: the bytes it has and the error it gives with the last of
-- them. Bytes past the limit of a call wait for the next call.
structure Read where
  data : Bytes
  error : Option ReadError
  deriving DecidableEq

abbrev Reader := List Read

def read (limit : Nat) : Reader → (Bytes × Option ReadError) × Reader
  | [] => (([],some .eof),[])
  | next :: rest =>
    if limit < next.data.length then
      ((next.data.take limit,none),⟨next.data.drop limit,next.error⟩ :: rest)
    else ((next.data,next.error),rest)

-- The stream up to its end or to the first failure.
def input : Reader → Bytes
  | [] => []
  | next :: rest =>
    match next.error with
    | none => next.data ++ input rest
    | some _ => next.data

def pending (reader : Reader) : Nat := (reader.map (fun next => next.data.length)).sum

-- A reader that keeps to io.Reader's advice: no empty read without an error.
def Busy (reader : Reader) : Prop := ∀ next ∈ reader, next.error = none → next.data ≠ []

def Sound (reader : Reader) : Prop := ∀ next ∈ reader, ∀ message, next.error ≠ some (.failed message)

structure Chunk where
  offset : Nat
  data : Bytes
  deriving DecidableEq

structure Filled where
  buffer : Bytes
  eof : Bool
  failure : Option Bytes
  rest : Reader

-- How the loop ended: at the end of the stream, on a Read that gave neither
-- bytes nor an error while nothing was buffered, or on a failed Read. The first
-- two return nil.
inductive Ending
  | finished | stalled | failed (message : Bytes)
  deriving DecidableEq

def Ending.error : Ending → Option Bytes
  | .failed message => some message
  | _ => none

namespace FastCDC
variable (c : FastCDC)

def mask : UInt64 := maskForAverage c.avgSize

def scan : UInt64 → Nat → Bytes → Nat
  | _,i,[] => i
  | fp,i,byte :: rest =>
    let fp := (fp <<< 1) + gear byte
    if c.avgSize / 2 ≤ i ∧ fp &&& c.mask = 0 then i + 1 else scan fp (i + 1) rest

def boundary (data : Bytes) : Nat :=
  if data.length ≤ c.minSize then data.length
  else c.scan 0 c.minSize ((data.take (min data.length c.maxSize)).drop c.minSize)

-- The inner loop. Every turn that is followed by another has added a byte, so
-- the room in the buffer bounds the turns.
def fill : Nat → Bytes → Reader → Filled
  | 0,buffer,reader => ⟨buffer,false,none,reader⟩
  | turns + 1,buffer,reader =>
    if c.maxSize ≤ buffer.length then ⟨buffer,false,none,reader⟩
    else
      let result := read (min (64 * 1024) (c.maxSize - buffer.length)) reader
      match result.1.2 with
      | some .eof => ⟨buffer ++ result.1.1,true,none,result.2⟩
      | some (.failed message) => ⟨buffer ++ result.1.1,false,some message,result.2⟩
      | none =>
        if result.1.1 = [] then ⟨buffer,false,none,result.2⟩
        else fill turns (buffer ++ result.1.1) result.2

def refill (eof : Bool) (buffer : Bytes) (reader : Reader) : Filled :=
  if eof then ⟨buffer,true,none,reader⟩ else c.fill c.maxSize buffer reader

-- The outer loop. Every turn cuts off a chunk, so the bytes to come bound the
-- turns.
def loop : Nat → Bool → Bytes → Reader → Nat → List Chunk × Ending
  | 0,_,_,_,_ => ([],.stalled)
  | turns + 1,eof,buffer,reader,offset =>
    let filled := c.refill eof buffer reader
    match filled.failure with
    | some message => ([],.failed message)
    | none =>
      if filled.buffer = [] then ([],if filled.eof then .finished else .stalled)
      else
        let size := c.boundary filled.buffer
        let next := loop turns filled.eof (filled.buffer.drop size) filled.rest (offset + size)
        (⟨offset,filled.buffer.take size⟩ :: next.1,next.2)

-- The chunks the callback gets, in order, and how the loop ended.
def forEach (reader : Reader) : List Chunk × Ending := c.loop (pending reader + 1) false [] reader 0

-- The buffer and the rest of the stream at the turns of the outer loop that
-- still read.
inductive Visits (reader : Reader) : Bytes → Reader → Prop
  | start : Visits reader [] reader | turn {buffer : Bytes} {rest : Reader} (before : Visits reader buffer rest)
      (fine : (c.fill c.maxSize buffer rest).failure = none) (more : (c.fill c.maxSize buffer rest).eof = false) :
      Visits reader ((c.fill c.maxSize buffer rest).buffer.drop (c.boundary (c.fill c.maxSize buffer rest).buffer))
        (c.fill c.maxSize buffer rest).rest

-- No Read gives neither bytes nor an error while the buffer is empty.
def Fed (reader : Reader) : Prop :=
  ∀ rest, c.Visits reader [] rest → (read (min (64 * 1024) c.maxSize) rest).1.2 = none →
    (read (min (64 * 1024) c.maxSize) rest).1.1 ≠ []

theorem room : 0 < c.maxSize := by
  have := c.positive; have := c.average; have := c.maximum; omega

theorem scan_bounds (fp : UInt64) (i : Nat) (data : Bytes) :
    i ≤ c.scan fp i data ∧ c.scan fp i data ≤ i + data.length := by
  induction data generalizing fp i with
  | nil => simp [scan]
  | cons byte _ ih =>
    have next := ih ((fp <<< 1) + gear byte) (i + 1)
    simp only [scan,List.length_cons]
    split <;> omega

theorem boundary_bounds (data : Bytes) (some : data ≠ []) : 0 < c.boundary data ∧ c.boundary data ≤ data.length := by
  have positive := c.positive
  have length := List.length_pos_iff.mpr some
  have bounds := c.scan_bounds 0 c.minSize ((data.take (min data.length c.maxSize)).drop c.minSize)
  simp only [List.length_drop,List.length_take] at bounds
  unfold boundary
  split <;> omega

end FastCDC

section
variable (limit : Nat) (reader : Reader)

theorem read_input : input reader = (read limit reader).1.1 ++
      match (read limit reader).1.2 with
      | none => input (read limit reader).2
      | some _ => [] := by
  cases reader with
  | nil => simp [read,input]
  | cons next rest =>
    simp only [read]
    split
    · simp only [input]
      cases next.error with
      | none => simp only [← List.append_assoc,List.take_append_drop]
      | some e => simp only [List.take_append_drop]
    · simp only [input]
      cases next.error <;> simp

theorem read_pending : (read limit reader).1.1.length + pending (read limit reader).2 = pending reader := by
  cases reader with
  | nil => simp [read,pending]
  | cons =>
    simp only [read]
    split
    · simp only [pending,List.map_cons,List.sum_cons,List.length_take,List.length_drop]
      omega
    · simp [pending]

theorem read_busy (room : 0 < limit) (busy : Busy reader) :
    Busy (read limit reader).2 ∧ ((read limit reader).1.2 = none → (read limit reader).1.1 ≠ []) := by
  cases reader with
  | nil => simp [read,Busy]
  | cons next rest =>
    have later : Busy rest := fun other member => busy other (List.mem_cons_of_mem _ member)
    simp only [read]
    split
    · constructor
      · intro other member
        rcases List.mem_cons.mp member with rfl | old
        · intro _ empty
          have length := congrArg List.length empty
          simp only [List.length_drop,List.length_nil] at length
          omega
        · exact later other old
      · intro _ empty
        have length := congrArg List.length empty
        simp only [List.length_take,List.length_nil] at length
        omega
    · exact ⟨later,busy next (List.mem_cons_self ..)⟩

theorem read_sound (sound : Sound reader) :
    Sound (read limit reader).2 ∧ ∀ message, (read limit reader).1.2 ≠ some (.failed message) := by
  cases reader with
  | nil => simp [read,Sound]
  | cons next rest =>
    have now := sound next (List.mem_cons_self ..)
    have later : Sound rest := fun other member => sound other (List.mem_cons_of_mem _ member)
    simp only [read]
    split
    · refine ⟨?_,nofun⟩
      intro other member
      rcases List.mem_cons.mp member with rfl | old
      · exact now
      · exact later other old
    · exact ⟨later,now⟩

end

def remaining (eof : Bool) (buffer : Bytes) (reader : Reader) : Bytes :=
  if eof then buffer else buffer ++ input reader

namespace FastCDC
variable (c : FastCDC)

attribute [local simp] fill loop

section
variable (turns : Nat) (buffer : Bytes) (reader : Reader)

-- What the inner loop makes of a buffer and the stream behind it.
structure Filling (buffer : Bytes) (reader : Reader) (filled : Filled) : Prop where
  whole : filled.failure = none → remaining filled.eof filled.buffer filled.rest = buffer ++ input reader
  total : filled.buffer.length + pending filled.rest = buffer.length + pending reader
  grows : buffer ≠ [] → filled.buffer ≠ []
  busy : Busy reader → Busy filled.rest
  sound : Sound reader → filled.failure = none ∧ Sound filled.rest

theorem fill_exact : Filling buffer reader (c.fill turns buffer reader) := by
  induction turns generalizing buffer reader with
  | zero => exact ⟨fun _ => rfl,rfl,fun some => some,fun busy => busy,fun sound => ⟨rfl,sound⟩⟩
  | succ turns ih =>
    simp only [fill]
    split
    · exact ⟨fun _ => rfl,rfl,fun some => some,fun busy => busy,fun sound => ⟨rfl,sound⟩⟩
    · have whole := read_input (min (64 * 1024) (c.maxSize - buffer.length)) reader
      have total := read_pending (min (64 * 1024) (c.maxSize - buffer.length)) reader
      have busy := fun busy => (read_busy (min (64 * 1024) (c.maxSize - buffer.length)) reader (by omega) busy).1
      have sound := read_sound (min (64 * 1024) (c.maxSize - buffer.length)) reader
      generalize read (min (64 * 1024) (c.maxSize - buffer.length)) reader = result at whole total busy sound ⊢
      obtain ⟨⟨data,error⟩,rest⟩ := result
      have longer : buffer ≠ [] → buffer ++ data ≠ [] := by simp +contextual
      cases error with
      | none =>
        simp only at whole total ⊢
        split
        · rename_i empty
          rw [empty,List.nil_append] at whole
          rw [empty,List.length_nil,Nat.zero_add] at total
          exact ⟨fun _ => by rw [whole]; rfl,by rw [total],fun some => some,busy,fun fine => ⟨rfl,(sound fine).1⟩⟩
        · have later := ih (buffer ++ data) rest
          refine ⟨?_,?_,fun some => later.grows (longer some),fun fine => later.busy (busy fine),
            fun fine => later.sound (sound fine).1⟩
          · intro fine
            rw [later.whole fine,whole,List.append_assoc]
          · rw [later.total,List.length_append]
            omega
      | some cause =>
        simp only [List.append_nil] at whole total
        have kept : (buffer ++ data).length + pending rest = buffer.length + pending reader := by
          rw [List.length_append]
          omega
        cases cause with
        | eof => exact ⟨fun _ => by rw [whole]; rfl,kept,longer,busy,fun fine => ⟨rfl,(sound fine).1⟩⟩
        | failed message => exact ⟨nofun,kept,longer,busy,fun fine => absurd rfl ((sound fine).2 message)⟩

-- When the first read of an empty buffer brings a byte, the end or a failure,
-- an empty buffer after it means the end.
theorem fill_brings (brings : (read (min (64 * 1024) c.maxSize) reader).1.2 = none →
    (read (min (64 * 1024) c.maxSize) reader).1.1 ≠ []) (fine : (c.fill c.maxSize [] reader).failure = none)
    (empty : (c.fill c.maxSize [] reader).buffer = []) : (c.fill c.maxSize [] reader).eof = true := by
  obtain ⟨turns,full⟩ : ∃ turns, c.maxSize = turns + 1 := ⟨c.maxSize - 1,by have := c.room; omega⟩
  revert fine empty
  generalize turned : c.fill c.maxSize [] reader = filled
  rw [full] at turned
  simp only [fill,List.length_nil,Nat.sub_zero] at turned
  rw [if_neg (by omega)] at turned
  cases error : (read (min (64 * 1024) c.maxSize) reader).1.2 with
  | none =>
    simp only [error] at turned
    rw [if_neg (brings error)] at turned
    intro _ empty
    subst turned
    exact absurd empty ((c.fill_exact _ _ _).grows (by simpa using brings error))
  | some cause =>
    cases cause with
    | eof => simp only [error] at turned; subst turned; intro _ _; rfl
    | failed => simp only [error] at turned; subst turned; intro fine; cases fine

end

end FastCDC

def Contiguous : Nat → List Chunk → Prop
  | _,[] => True
  | offset,chunk :: rest => chunk.offset = offset ∧ Contiguous (offset + chunk.data.length) rest

namespace FastCDC
variable (c : FastCDC)

theorem refill_remaining (eof : Bool) (buffer : Bytes) (reader : Reader)
    (fine : (c.refill eof buffer reader).failure = none) :
    remaining (c.refill eof buffer reader).eof (c.refill eof buffer reader).buffer
      (c.refill eof buffer reader).rest = remaining eof buffer reader := by
  cases eof with
  | false => exact (c.fill_exact _ _ _).whole fine
  | true => rfl

section
variable (turns : Nat) (eof : Bool) (buffer : Bytes) (reader : Reader)

theorem loop_contiguous (offset : Nat) : Contiguous offset (c.loop turns eof buffer reader offset).1 := by
  induction turns generalizing eof buffer reader offset with
  | zero => trivial
  | succ turns ih =>
    simp only [loop]
    split
    · trivial
    · split
      · trivial
      · rename_i some
        refine ⟨rfl,?_⟩
        have bounds := c.boundary_bounds _ some
        simp only [List.length_take,Nat.min_eq_left bounds.2]
        exact ih ..

theorem loop_whole (offset : Nat) (finished : (c.loop turns eof buffer reader offset).2 = .finished) :
    ((c.loop turns eof buffer reader offset).1.map Chunk.data).flatten = remaining eof buffer reader := by
  induction turns generalizing eof buffer reader offset with
  | zero => cases finished
  | succ turns ih =>
    revert finished
    simp only [loop]
    cases failure : (c.refill eof buffer reader).failure with
    | some => intro finished; cases finished
    | none =>
      have kept := c.refill_remaining eof buffer reader failure
      simp only
      split
      · rename_i empty
        split
        · rename_i ended
          intro _
          rw [← kept]
          simp [remaining,ended,empty]
        · intro finished; cases finished
      · intro finished
        simp only [List.map_cons,List.flatten_cons]
        rw [ih _ _ _ _ finished,← kept]
        cases (c.refill eof buffer reader).eof
        · simp only [remaining,Bool.false_eq_true,if_false,← List.append_assoc,List.take_append_drop]
        · simp only [remaining,if_true,List.take_append_drop]

theorem loop_ends (fed : c.Fed reader) (turns : Nat) (eof : Bool) (buffer : Bytes)
    (rest : Reader) (offset : Nat) (visited : eof = false → c.Visits reader buffer rest)
    (enough : buffer.length + pending rest < turns) : (c.loop turns eof buffer rest offset).2 ≠ .stalled := by
  induction turns generalizing eof buffer rest offset with
  | zero => omega
  | succ turns ih =>
    have total : (c.refill eof buffer rest).buffer.length + pending (c.refill eof buffer rest).rest =
        buffer.length + pending rest := by
      cases eof with
      | false => exact (c.fill_exact _ _ _).total
      | true => rfl
    simp only [loop]
    cases failure : (c.refill eof buffer rest).failure with
    | some => nofun
    | none =>
      simp only
      split
      · rename_i empty
        have ended : (c.refill eof buffer rest).eof = true := by
          cases eof with
          | true => rfl
          | false =>
            have start : buffer = [] := by
              apply Classical.byContradiction
              intro some
              exact (c.fill_exact _ _ _).grows some empty
            subst start
            exact c.fill_brings rest (fed rest (visited rfl)) failure empty
        simp [ended]
      · rename_i some
        have bounds := c.boundary_bounds _ some
        apply ih
        · cases eof with
          | true => intro more; cases more
          | false => intro more; exact .turn (visited rfl) failure more
        · rw [List.length_drop]
          omega

theorem loop_sound (offset : Nat) (sound : Sound reader) (message : Bytes) :
    (c.loop turns eof buffer reader offset).2 ≠ .failed message := by
  induction turns generalizing eof buffer reader offset with
  | zero => nofun
  | succ _ ih =>
    have fine : (c.refill eof buffer reader).failure = none ∧ Sound (c.refill eof buffer reader).rest := by
      cases eof with
      | false => exact (c.fill_exact _ _ _).sound sound
      | true => exact ⟨rfl,sound⟩
    simp only [loop,fine.1]
    split
    · split <;> nofun
    · exact ih _ _ _ _ fine.2

theorem forEach_contiguous : Contiguous 0 (c.forEach reader).1 := c.loop_contiguous ..

theorem forEach_whole (finished : (c.forEach reader).2 = .finished) :
    ((c.forEach reader).1.map Chunk.data).flatten = input reader :=
  c.loop_whole _ _ _ _ _ finished

theorem forEach_ends (fed : c.Fed reader) : (c.forEach reader).2 ≠ .stalled :=
  c.loop_ends reader fed _ _ _ _ _ (fun _ => .start) (by simp)

example : (FastCDC.mk 1 1 1 (by decide) (by decide) (by decide)).forEach [⟨[],none⟩,⟨[7],some .eof⟩] =
    ([],.stalled) := by decide +kernel

theorem busy_fed (busy : Busy reader) : c.Fed reader := by
  have stays (buffer : Bytes) (rest : Reader) (visited : c.Visits reader buffer rest) : Busy rest := by
    induction visited with
    | start => exact busy
    | turn _ _ _ ih => exact (c.fill_exact _ _ _).busy ih
  intro rest visited
  exact (read_busy _ rest (by have := c.room; omega) (stays [] rest visited)).2

end

end FastCDC
end Kronos.Chunker
