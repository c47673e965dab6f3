import Kronos.Chunker

namespace Kronos.Chunker
open ByteRange

namespace FastCDC
variable (c : FastCDC)

-- Whether the rolling hash asks for a cut in these bytes.
def found : UInt64 → Nat → Bytes → Bool
  | _,_,[] => false
  | fp,i,byte :: rest =>
    let fp := (fp <<< 1) + gear byte
    decide (c.avgSize / 2 ≤ i ∧ fp &&& c.mask = 0) || found fp (i + 1) rest

def holdsCut (data : Bytes) : Bool := c.found 0 c.minSize (data.drop c.minSize)

def cuts (data : Bytes) : List Chunk := (c.loop (data.length + 1) true data [] 0).1

-- The buffer and the rest of the stream at the turns that read, from one on.
inductive Later : Bytes → Reader → Bytes → Reader → Prop
  | here {buffer : Bytes} {reader : Reader} : Later buffer reader buffer reader
  | turn {buffer last : Bytes} {reader rest : Reader} (more : (c.fill c.maxSize buffer reader).eof = false)
      (some : (c.fill c.maxSize buffer reader).buffer ≠ [])
      (after : Later ((c.fill c.maxSize buffer reader).buffer.drop (c.boundary (c.fill c.maxSize buffer reader).buffer))
        (c.fill c.maxSize buffer reader).rest last rest) : Later buffer reader last rest

-- Reading stops before the end and with room in the buffer only if nothing
-- follows or the bytes at hand hold a cut.
def Decided (buffer : Bytes) (reader : Reader) : Prop :=
  (c.fill c.maxSize buffer reader).eof = false → (c.fill c.maxSize buffer reader).buffer.length < c.maxSize →
    input (c.fill c.maxSize buffer reader).rest ≠ [] → c.holdsCut (c.fill c.maxSize buffer reader).buffer = true

def Patient (reader : Reader) : Prop := ∀ buffer rest, c.Later [] reader buffer rest → c.Decided buffer rest

-- The stream comes out whole, in contiguous chunks of the sizes asked for, cut
-- where its bytes alone say.
structure Covers (reader : Reader) : Prop where
  clean : (c.forEach reader).2.error = none
  whole : ((c.forEach reader).1.map Chunk.data).flatten = input reader
  contiguous : Contiguous 0 (c.forEach reader).1
  sized : ∀ chunk ∈ (c.forEach reader).1.dropLast, c.minSize ≤ chunk.data.length ∧ chunk.data.length ≤ c.maxSize
  cut : (c.forEach reader).1 = c.cuts (input reader)

variable {c} {fp : UInt64} {i : Nat} {data rest buffer : Bytes} {reader : Reader}

attribute [local simp] found scan

theorem scan_found (here : c.found fp i data = true) : c.scan fp i (data ++ rest) = c.scan fp i data := by
  induction data generalizing fp i with
  | nil => cases here
  | cons byte tail ih =>
    simp only [List.cons_append,scan]
    split
    · rfl
    · rename_i other
      simp only [found,Bool.or_eq_true,decide_eq_true_eq] at here
      exact ih (here.resolve_left other)

theorem scan_missed (missed : c.found fp i data = false) : c.scan fp i data = i + data.length := by
  induction data generalizing fp i with
  | nil => rfl
  | cons _ _ ih =>
    simp only [found,Bool.or_eq_false_iff,decide_eq_false_iff_not] at missed
    simp only [scan]
    rw [if_neg missed.1,ih missed.2,List.length_cons]
    omega

theorem scan_beyond (missed : c.found fp i data = false) (more : rest ≠ []) :
    i + data.length < c.scan fp i (data ++ rest) := by
  induction data generalizing fp i with
  | nil =>
    cases rest with
    | nil => exact absurd rfl more
    | cons byte tail =>
      have bounds := c.scan_bounds ((fp <<< 1) + gear byte) (i + 1) tail
      simp only [List.nil_append,List.length_nil,scan]
      split <;> omega
  | cons _ _ ih =>
    simp only [found,Bool.or_eq_false_iff,decide_eq_false_iff_not] at missed
    have next := ih missed.2
    simp only [List.cons_append,List.length_cons,scan]
    rw [if_neg missed.1]
    omega

theorem boundary_scan (long : c.minSize < data.length) :
    c.boundary data = c.scan 0 c.minSize ((data.take c.maxSize).drop c.minSize) := by
  rw [boundary,if_neg (by omega)]
  by_cases within : data.length ≤ c.maxSize
  · rw [Nat.min_eq_left within,List.take_of_length_le le_rfl,List.take_of_length_le within]
  · rw [Nat.min_eq_right (by omega)]

theorem boundary_full (full : c.maxSize ≤ data.length) : c.boundary (data ++ rest) = c.boundary data := by
  have average := c.average
  have maximum := c.maximum
  by_cases short : data.length ≤ c.minSize
  · -- min = max: a cut at that many bytes either way
    have same : c.maxSize = c.minSize := by omega
    by_cases more : rest = []
    · rw [more,List.append_nil]
    · have longer : 0 < rest.length := List.length_pos_iff.mpr more
      rw [boundary_scan (by rw [List.length_append]; omega),boundary,if_pos short,same,
        List.drop_of_length_le (by simp)]
      simp only [scan]
      omega
  · rw [boundary_scan (by rw [List.length_append]; omega),boundary_scan (by omega),
      List.take_append_of_le_length full]

-- With room left, the bytes at hand give the cut of the whole stream exactly
-- when there is no more of it or they hold a cut.
theorem boundary_decided (room : data.length < c.maxSize) :
    c.boundary data = c.boundary (data ++ rest) ↔ rest = [] ∨ c.holdsCut data = true := by
  by_cases more : rest = []
  · simp [more]
  have length : 0 < rest.length := List.length_pos_iff.mpr more
  have cut : (data ++ rest).take c.maxSize = data ++ rest.take (c.maxSize - data.length) := by
    rw [List.take_append,List.take_of_length_le (le_of_lt room)]
  have next : rest.take (c.maxSize - data.length) ≠ [] := by
    apply List.ne_nil_of_length_pos
    rw [List.length_take]
    omega
  have missed (short : data.length ≤ c.minSize) : c.holdsCut data = false := by
    rw [holdsCut,List.drop_of_length_le short]
    rfl
  simp only [more,false_or]
  by_cases short : data.length ≤ c.minSize
  · rw [missed short]
    have least : c.boundary data = data.length := by rw [boundary,if_pos short]
    have beyond : data.length < c.boundary (data ++ rest) := by
      by_cases still : (data ++ rest).length ≤ c.minSize
      · rw [boundary,if_pos still,List.length_append]
        omega
      · have bounds := c.scan_bounds 0 c.minSize ((data ++ rest.take (c.maxSize - data.length)).drop c.minSize)
        rw [boundary_scan (by omega),cut]
        by_cases equal : data.length = c.minSize
        · have start := @scan_beyond c 0 c.minSize [] _ rfl next
          rw [← equal,List.drop_left]
          rw [List.nil_append,List.length_nil,← equal] at start
          exact start
        · omega
    simp only [Bool.false_eq_true,iff_false]
    omega
  · rw [boundary_scan (Nat.lt_of_not_le short),boundary_scan (by rw [List.length_append]; omega),cut,
      List.take_of_length_le (le_of_lt room),List.drop_append_of_le_length (by omega),holdsCut]
    cases hit : c.found 0 c.minSize (data.drop c.minSize) with
    | true => simp [scan_found hit]
    | false =>
      have beyond := scan_beyond hit next
      rw [scan_missed hit]
      simp only [Bool.false_eq_true,iff_false]
      omega

theorem boundary_sized (more : c.boundary data < data.length) :
    c.minSize ≤ c.boundary data ∧ c.boundary data ≤ c.maxSize := by
  by_cases short : data.length ≤ c.minSize
  · rw [boundary,if_pos short] at more
    omega
  · have average := c.average
    have maximum := c.maximum
    have bounds := c.scan_bounds 0 c.minSize ((data.take c.maxSize).drop c.minSize)
    rw [boundary_scan (by omega)]
    simp only [List.length_drop,List.length_take] at bounds
    omega

attribute [local simp] loop

-- Once the end was seen nothing is read and enough turns are enough.
theorem loop_ended (enough : data.length < turns) (also_ : data.length < more) :
    (c.loop turns true data reader offset).1 = (c.loop more true data [] offset).1 := by
  induction turns generalizing more data offset with
  | zero => omega
  | succ turns ih =>
    obtain ⟨left,rfl⟩ : ∃ left, more = left + 1 := ⟨more - 1,by omega⟩
    simp only [loop,refill,if_true]
    split
    · rfl
    · rename_i some
      have bounds := c.boundary_bounds data some
      have shorter : (data.drop (c.boundary data)).length = data.length - c.boundary data := List.length_drop
      exact congrArg (List.cons _) (@ih (data.drop (c.boundary data)) left _ (by omega) (by omega))

theorem loop_sized (chunk : Chunk) (member : chunk ∈ (c.loop turns true data [] offset).1.dropLast) :
    c.minSize ≤ chunk.data.length ∧ chunk.data.length ≤ c.maxSize := by
  induction turns generalizing data offset with
  | zero => cases member
  | succ turns ih =>
    revert member
    simp only [loop,refill,if_true]
    split
    · intro member; cases member
    · rename_i some
      have bounds := c.boundary_bounds data some
      cases shape : (c.loop turns true (data.drop (c.boundary data)) [] (offset + c.boundary data)).1 with
      | nil => intro member; cases member
      | cons =>
        have later := @ih (data.drop (c.boundary data)) (offset + c.boundary data)
        rw [shape] at later
        intro member
        rcases List.mem_cons.mp member with rfl | old
        · have rest : data.drop (c.boundary data) ≠ [] := by
            intro empty
            rw [empty] at shape
            cases turns <;> simp [loop,refill] at shape
          have longer := List.length_pos_iff.mpr rest
          rw [List.length_drop] at longer
          rw [List.length_take,Nat.min_eq_left bounds.2]
          exact boundary_sized (by omega)
        · exact later old

theorem later_split : (∀ last rest, c.Later buffer reader last rest → c.Decided last rest) ↔
    c.Decided buffer reader ∧ ((c.fill c.maxSize buffer reader).eof = false →
      (c.fill c.maxSize buffer reader).buffer ≠ [] → ∀ last rest,
        c.Later ((c.fill c.maxSize buffer reader).buffer.drop (c.boundary (c.fill c.maxSize buffer reader).buffer))
          (c.fill c.maxSize buffer reader).rest last rest → c.Decided last rest) := by
  constructor
  · intro all
    exact ⟨all _ _ .here,fun more some last rest after => all last rest (.turn more some after)⟩
  · rintro ⟨now,next⟩ last rest later
    cases later with
    | here => exact now
    | turn more some after => exact next more some last rest after

theorem decided_boundary : c.Decided buffer reader ↔ c.boundary (c.fill c.maxSize buffer reader).buffer =
    c.boundary (remaining (c.fill c.maxSize buffer reader).eof (c.fill c.maxSize buffer reader).buffer
      (c.fill c.maxSize buffer reader).rest) := by
  unfold Decided
  cases ended : (c.fill c.maxSize buffer reader).eof with
  | true => simp [remaining]
  | false =>
    simp only [remaining,Bool.false_eq_true,if_false,forall_const]
    by_cases room : (c.fill c.maxSize buffer reader).buffer.length < c.maxSize
    · rw [boundary_decided room]
      simp only [room,forall_const]
      exact imp_iff_not_or.trans (by rw [ne_eq,not_not])
    · rw [boundary_full (Nat.le_of_not_lt room)]
      simp [room]

theorem remaining_drop (within : size ≤ buffer.length) :
    remaining eof (buffer.drop size) reader = (remaining eof buffer reader).drop size := by
  cases eof with
  | true => rfl
  | false => simp [remaining,List.drop_append_of_le_length within]

theorem remaining_take (within : size ≤ buffer.length) :
    (remaining eof buffer reader).take size = buffer.take size := by
  cases eof with
  | true => rfl
  | false => simp [remaining,List.take_append_of_le_length within]

theorem remaining_empty : remaining eof buffer reader = [] ↔ buffer = [] ∧ (eof = false → input reader = []) := by
  cases eof <;> simp [remaining]

-- The chunks are those of the whole stream exactly when every turn that reads
-- is decided; a turn after the end always is.
theorem loop_cuts {turns more offset : Nat} {eof : Bool} (sound : Sound reader)
    (enough : buffer.length + pending reader < turns) (plenty : (remaining eof buffer reader).length < more) :
    (c.loop turns eof buffer reader offset).1 = (c.loop more true (remaining eof buffer reader) [] offset).1 ↔
      (eof = false → ∀ last rest, c.Later buffer reader last rest → c.Decided last rest) := by
  induction turns generalizing more eof buffer reader offset with
  | zero => omega
  | succ turns ih =>
    cases eof with
    | true =>
      have short : buffer.length < turns + 1 := by omega
      simp only [remaining,if_true,loop_ended short plenty,true_iff]
      intro never
      cases never
    | false =>
      have filling := c.fill_exact c.maxSize buffer reader
      obtain ⟨fine,later⟩ := filling.sound sound
      have total := filling.total
      have kept := filling.whole fine
      have start : remaining false buffer reader = buffer ++ input reader := rfl
      obtain ⟨left,rfl⟩ : ∃ left, more = left + 1 := ⟨more - 1,by omega⟩
      rw [start,← kept] at plenty ⊢
      rw [later_split,decided_boundary]
      simp only [loop,refill,Bool.false_eq_true,if_false,if_true,fine,forall_const]
      generalize c.fill c.maxSize buffer reader = f at later total plenty ⊢
      by_cases empty : f.buffer = []
      · rw [if_pos empty]
        by_cases nothing : remaining f.eof f.buffer f.rest = []
        · rw [if_pos nothing,nothing,empty]
          simp
        · have positive := (c.boundary_bounds _ nothing).1
          have least : c.boundary f.buffer = 0 := by simp [empty,boundary]
          rw [if_neg nothing]
          simp only [reduceCtorEq,false_iff,least]
          omega
      · have some : remaining f.eof f.buffer f.rest ≠ [] := fun none => empty (remaining_empty.mp none).1
        have bounds := c.boundary_bounds _ empty
        have others := c.boundary_bounds _ some
        rw [if_neg empty,if_neg some]
        by_cases same : c.boundary f.buffer = c.boundary (remaining f.eof f.buffer f.rest)
        · rw [← same,remaining_take bounds.2,← remaining_drop bounds.2]
          simp only [List.cons.injEq,true_and,empty,ne_eq,not_false_eq_true,forall_const]
          exact ih later (by rw [List.length_drop]; omega)
            (by rw [remaining_drop bounds.2,List.length_drop]; omega)
        · simp only [same,false_and,iff_false]
          intro equal
          have sizes := congrArg (fun chunks => chunks.map fun chunk : Chunk => chunk.data.length) equal
          simp only [List.map_cons,List.cons.injEq,List.length_take,Nat.min_eq_left bounds.2,
            Nat.min_eq_left others.2] at sizes
          exact same sizes.1

theorem forEach_cuts (sound : Sound reader) : (c.forEach reader).1 = c.cuts (input reader) ↔ c.Patient reader := by
  have exact := @loop_cuts c [] reader (pending reader + 1) ((input reader).length + 1) 0 false sound (by simp)
    (Nat.lt_succ_self _)
  exact exact.trans (forall_prop_of_true rfl)

theorem cuts_whole (data : Bytes) : ((c.cuts data).map Chunk.data).flatten = data := by
  have ended := c.loop_ends [] (c.busy_fed [] (List.forall_mem_nil _)) (data.length + 1) true data [] 0
    (fun never => absurd never Bool.true_eq_false.mp) (by simp [pending])
  have clean := c.loop_sound (data.length + 1) true data [] 0 (List.forall_mem_nil _)
  cases ending : (c.loop (data.length + 1) true data [] 0).2 with
  | finished => exact c.loop_whole _ _ _ _ _ ending
  | stalled => exact absurd ending ended
  | failed message => exact absurd ending (clean message)

-- Chunking covers the stream exactly when no read that brings nothing comes
-- while the cut of the bytes at hand is still open.
theorem stream_covered_exactly_for_patient_readers (c : FastCDC) {reader : Reader} (sound : Sound reader) :
    c.Covers reader ↔ c.Patient reader := by
  constructor
  · intro covered
    exact (forEach_cuts sound).mp covered.cut
  · intro patient
    have cut := (forEach_cuts sound).mpr patient
    refine ⟨?_,?_,c.forEach_contiguous reader,?_,cut⟩
    · cases ending : (c.forEach reader).2 with
      | failed message => exact absurd ending (c.loop_sound _ _ _ _ _ sound message)
      | finished => rfl
      | stalled => rfl
    · rw [cut,cuts_whole]
    · rw [cut]
      exact fun chunk member => loop_sized chunk member

theorem sound_unfailed (unfailed : ∀ next ∈ reader, next.error = none ∨ next.error = some .eof) : Sound reader := by
  intro next member message failed
  rcases unfailed next member with none | eof
  · rw [none] at failed; cases failed
  · rw [eof] at failed; cases failed

-- With an average of one byte every byte from the second on is a cut, so a pause
-- after two bytes does no harm.
def byteChunker : FastCDC := ⟨1,1,4,by decide,by decide,by decide⟩

def pausing : Reader := [⟨[1,2],none⟩,⟨[],none⟩,⟨[3],some .eof⟩]

theorem pausing_reader_covered : Sound pausing ∧ byteChunker.Patient pausing ∧ byteChunker.Covers pausing := by
  have sound : Sound pausing := sound_unfailed (by decide)
  have patient : byteChunker.Patient pausing := (forEach_cuts sound).mp (by decide +kernel)
  exact ⟨sound,patient,(stream_covered_exactly_for_patient_readers byteChunker sound).mpr patient⟩

def pairChunker : FastCDC := ⟨2,2,4,by decide,by decide,by decide⟩

-- A pause after one byte makes a chunk below the minimum; a pause before the
-- first byte loses the stream, and no error says so.
theorem pause_cuts_short_or_loses_stream :
    pairChunker.forEach [⟨[1],none⟩,⟨[],none⟩,⟨[2,3],some .eof⟩] = ([⟨0,[1]⟩,⟨1,[2,3]⟩],.finished) ∧
    pairChunker.forEach [⟨[1,2,3],some .eof⟩] = ([⟨0,[1,2,3]⟩],.finished) ∧ input [⟨[],none⟩,⟨[7],some .eof⟩] = [7] ∧
    (pairChunker.forEach [⟨[],none⟩,⟨[7],some .eof⟩]).1 = [] ∧
    (pairChunker.forEach [⟨[],none⟩,⟨[7],some .eof⟩]).2.error = none := by decide +kernel

theorem loop_data :
    (c.loop turns true data [] from_).1.map Chunk.data = (c.loop turns true data [] to_).1.map Chunk.data := by
  induction turns generalizing data from_ to_ with
  | zero => rfl
  | succ _ ih =>
    simp only [loop,refill,if_true]
    split
    · rfl
    · exact congrArg (List.cons _) ih

variable (c) in
def pieces (data : Bytes) : List Bytes := (c.cuts data).map Chunk.data

theorem pieces_cut (some : data ≠ []) :
    c.pieces data = data.take (c.boundary data) :: c.pieces (data.drop (c.boundary data)) := by
  have bounds := c.boundary_bounds data some
  have shorter : (data.drop (c.boundary data)).length < data.length := by
    rw [List.length_drop]
    omega
  have first : c.cuts data = ⟨0,data.take (c.boundary data)⟩ ::
      (c.loop data.length true (data.drop (c.boundary data)) [] (0 + c.boundary data)).1 := by
    simp only [cuts,loop,refill,if_true,if_neg some]
  rw [pieces,first,List.map_cons,loop_ended shorter (Nat.lt_succ_self _),loop_data]
  rfl

theorem pieces_after (cut : ((c.pieces (data ++ rest)).take k).flatten = data) :
    (c.pieces (data ++ rest)).drop k = c.pieces rest := by
  induction k generalizing data with
  | zero =>
    have nothing : data = [] := cut.symm
    rw [nothing]
    rfl
  | succ k ih =>
    by_cases some : data ++ rest = []
    · obtain ⟨one,other⟩ := List.append_eq_nil_iff.mp some
      rw [one,other]
      rfl
    · rw [pieces_cut some] at cut ⊢
      rw [List.take_succ_cons,List.flatten_cons] at cut
      generalize later : (List.take k (c.pieces ((data ++ rest).drop (c.boundary (data ++ rest))))).flatten = end_ at cut
      have whole : (data ++ rest).drop (c.boundary (data ++ rest)) = end_ ++ rest := by
        apply List.append_cancel_left
        rw [List.take_append_drop,← List.append_assoc,cut]
      rw [whole] at later ⊢
      exact ih later

theorem fill_full {turns : Nat} (busy : Busy reader) (enough : c.maxSize ≤ buffer.length + turns)
    (fine : (c.fill turns buffer reader).failure = none) (more : (c.fill turns buffer reader).eof = false) :
    c.maxSize ≤ (c.fill turns buffer reader).buffer.length := by
  induction turns generalizing buffer reader with
  | zero => exact enough
  | succ turns ih =>
    revert fine more
    simp only [fill]
    split
    · rename_i full
      exact fun _ _ => full
    · obtain ⟨later,brings⟩ := read_busy (min (64 * 1024) (c.maxSize - buffer.length)) reader (by omega) busy
      split
      · intro _ never
        cases never
      · intro never
        cases never
      · rename_i unended
        rw [if_neg (brings unended)]
        apply ih later
        have longer := List.length_pos_iff.mpr (brings unended)
        rw [List.length_append]
        omega

theorem loop_pieces {turns more offset : Nat} {eof : Bool} (busy : Busy reader)
    (enough : buffer.length + pending reader < turns) (plenty : (remaining eof buffer reader).length < more) :
    ∃ others, (c.loop more true (remaining eof buffer reader) [] offset).1.map Chunk.data =
        (c.loop turns eof buffer reader offset).1.map Chunk.data ++ others ∧
      ((c.loop turns eof buffer reader offset).2.error = none → others = []) := by
  induction turns generalizing more eof buffer reader offset with
  | zero => omega
  | succ turns ih =>
    cases eof with
    | true =>
      simp only [remaining,if_true] at plenty ⊢
      refine ⟨[],?_,fun _ => rfl⟩
      rw [List.append_nil]
      exact congrArg (List.map Chunk.data) (loop_ended (by omega) plenty).symm
    | false =>
      cases failed : (c.fill c.maxSize buffer reader).failure with
      | some message =>
        have stopped : c.loop (turns + 1) false buffer reader offset = ([],.failed message) := by
          simp only [loop,refill,Bool.false_eq_true,if_false,failed]
        rw [stopped]
        refine ⟨_,rfl,?_⟩
        intro never
        cases never
      | none =>
        have filling := c.fill_exact c.maxSize buffer reader
        have later := filling.busy busy
        have total := filling.total
        have kept := filling.whole failed
        have full := @fill_full c buffer reader c.maxSize busy (by omega) failed
        have decided : c.Decided buffer reader := by
          intro unended short
          exact absurd (full unended) (by omega)
        have same := decided_boundary.mp decided
        have start : remaining false buffer reader = buffer ++ input reader := rfl
        obtain ⟨left,rfl⟩ : ∃ left, more = left + 1 := ⟨more - 1,by omega⟩
        rw [start,← kept] at plenty ⊢
        simp only [loop,refill,Bool.false_eq_true,if_false,if_true,failed]
        generalize c.fill c.maxSize buffer reader = f at later total plenty full same ⊢
        by_cases empty : f.buffer = []
        · have ended : f.eof = true := by
            cases ends : f.eof with
            | true => rfl
            | false =>
              have room := c.room
              have length := full ends
              rw [empty,List.length_nil] at length
              omega
          refine ⟨[],?_,fun _ => rfl⟩
          rw [ended,remaining,if_pos rfl,empty]
          rfl
        · have some : remaining f.eof f.buffer f.rest ≠ [] := fun none => empty (remaining_empty.mp none).1
          have bounds := c.boundary_bounds _ empty
          have others := c.boundary_bounds _ some
          rw [if_neg empty,if_neg some,← same,remaining_take bounds.2,← remaining_drop bounds.2]
          obtain ⟨rest,equal,none⟩ := @ih (f.buffer.drop (c.boundary f.buffer)) f.rest left
            (offset + c.boundary f.buffer) f.eof later (by rw [List.length_drop]; omega)
            (by rw [remaining_drop bounds.2,List.length_drop]; omega)
          refine ⟨rest,?_,none⟩
          exact congrArg (List.cons _) equal

theorem forEach_pieces (busy : Busy reader) :
    ∃ others, c.pieces (input reader) = (c.forEach reader).1.map Chunk.data ++ others ∧
      ((c.forEach reader).2.error = none → others = []) :=
  @loop_pieces c [] reader (pending reader + 1) ((input reader).length + 1) 0 false busy (by simp)
    (Nat.lt_succ_self _)

-- From the i-th and the j-th chunk on two runs hand out the same data as far as
-- both go, and all of it if neither fails.
def Rejoin (first second : List Chunk × Ending) (i j : Nat) : Prop :=
  ((first.1.drop i).map Chunk.data <+: (second.1.drop j).map Chunk.data ∨
    (second.1.drop j).map Chunk.data <+: (first.1.drop i).map Chunk.data) ∧
  (first.2.error = none → second.2.error = none →
    (first.1.drop i).map Chunk.data = (second.1.drop j).map Chunk.data)

theorem forEach_after (busy : Busy reader) (stream : input reader = data ++ rest)
    (cut : (((c.forEach reader).1.take k).map Chunk.data).flatten = data) :
    ∃ others, c.pieces rest = ((c.forEach reader).1.drop k).map Chunk.data ++ others ∧
      ((c.forEach reader).2.error = none → others = []) := by
  obtain ⟨others,whole,none⟩ := @forEach_pieces c reader busy
  rw [stream] at whole
  refine ⟨others,?_,none⟩
  rw [← List.take_append_drop k (c.forEach reader).1,List.map_append,List.append_assoc] at whole
  have begins : ((c.pieces (data ++ rest)).take ((c.forEach reader).1.take k).length).flatten = data := by
    rw [whole,← cut]
    simp
  rw [← pieces_after begins,whole,List.drop_left' (by simp)]

theorem rejoin_prefixes
    (one : ∃ others, all = (first.1.drop i).map Chunk.data ++ others ∧ (first.2.error = none → others = []))
    (two : ∃ others, all = (second.1.drop j).map Chunk.data ++ others ∧ (second.2.error = none → others = [])) :
    Rejoin first second i j := by
  obtain ⟨left,whole,noneLeft⟩ := one
  obtain ⟨right,same,noneRight⟩ := two
  refine ⟨List.prefix_or_prefix_of_prefix ⟨left,whole.symm⟩ ⟨right,same.symm⟩,?_⟩
  intro fine also_
  rw [whole,noneLeft fine,noneRight also_,List.append_nil,List.append_nil] at same
  exact same

theorem chunks_rejoin_after_cut (c : FastCDC) {reader : Reader} {x y : Bytes} {k : Nat} (busy : Busy reader)
    (stream : input reader = x ++ y) (cut : (((c.forEach reader).1.take k).map Chunk.data).flatten = x) :
    (∀ alone, Busy alone → input alone = y → Rejoin (c.forEach reader) (c.forEach alone) k 0) ∧
    ∀ other z j, Busy other → input other = z ++ y →
      (((c.forEach other).1.take j).map Chunk.data).flatten = z → Rejoin (c.forEach reader) (c.forEach other) k j := by
  have here := forEach_after busy stream cut
  constructor
  · intro alone brings same
    exact rejoin_prefixes here (same ▸ forEach_pieces brings)
  · intro other z j brings same also_
    exact rejoin_prefixes here (forEach_after brings same also_)

theorem pair_streams_rejoin : Rejoin (pairChunker.forEach [⟨[1],none⟩,⟨[2,3,4,5,6,7],some .eof⟩])
      (pairChunker.forEach [⟨[5],none⟩,⟨[6,7],some .eof⟩]) 1 0 :=
  (chunks_rejoin_after_cut pairChunker (x := [1,2,3,4]) (y := [5,6,7]) (by unfold Busy; decide) rfl
    (by decide +kernel)).1 _ (by unfold Busy; decide) rfl

end FastCDC
end Kronos.Chunker
