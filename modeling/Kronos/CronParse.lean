import Kronos.CronClock

namespace Kronos.CronParse
open Effect ByteRange Utf8 Strings CronExpression CronDays CronClock

-- The loop over the numbers of a range as the source runs it, without a bound
-- on its turns.
inductive Loops (stop step : Int) : Int → Except Fault Nat → Prop
  | passed {i : Int} : stop < i → Loops stop step i (.ok 0)
  | shift {i : Int} : i ≤ stop → i < 0 → Loops stop step i (.error .negativeShift)
  | turn {i : Int} {rest : Except Fault Nat} : i ≤ stop → 0 ≤ i → Loops stop step (wrapped (i + step)) rest →
      Loops stop step i (rest.map (2^i.toNat ||| ·))

def Panics : Fault → Prop
  | .negativeShift => True
  | .inField _ cause => Panics cause
  | _ => False

section
variable {stop step : Int}

theorem rangeBits_loops (positive : 0 < step) (large : step < 2^63) (short : stop < 64) {fuel : Nat} (nonneg : 0 ≤ i)
    (enough : stop - i + 1 < fuel) : Loops stop step i (rangeBits stop step fuel i) := by
  induction fuel generalizing i with
  | zero => exact .passed (by omega)
  | succ fuel ih =>
    rw [rangeBits]
    by_cases past : stop < i
    · rw [if_pos past]
      exact .passed past
    rw [if_neg past,if_neg (by omega)]
    refine .turn (by omega) nonneg ?_
    by_cases wraps : 2^63 ≤ i + step
    · have negative := wrapped_negative wraps (by omega)
      rw [rangeBits_wrapped wraps (by omega) (by omega) (by omega)]
      exact .shift (by omega) negative
    · rw [wrapped_small (by omega) (by omega)]
      exact ih (by omega) (by omega)

-- A step below the width of the range never takes the counter past the largest
-- integer, and a larger one leaves the range at once.
theorem rangeBits_spares_iff (positive : 0 < step) (large : step < 2^63) (short : stop < 64) {fuel : Nat}
    (nonneg : 0 ≤ i) (enough : stop - i + 1 < fuel) :
    Spares Panics (rangeBits stop step fuel i) ↔ (i ≤ stop → i + step < 2^63) := by
  induction fuel generalizing i with
  | zero => exact iff_of_true (spares_ok 0) (fun _ => by omega)
  | succ fuel ih =>
    rw [rangeBits]
    by_cases past : stop < i
    · rw [if_pos past]
      exact iff_of_true (spares_ok 0) (fun _ => by omega)
    rw [if_neg past,if_neg (by omega),spares_bind_iff]
    refine (and_iff_left (fun rest _ => spares_ok _)).trans ?_
    by_cases wraps : 2^63 ≤ i + step
    · rw [rangeBits_wrapped wraps (by omega) (by omega) (by omega),spares_error_iff]
      exact iff_of_false (fun spared => spared trivial) (by omega)
    · rw [wrapped_small (by omega) (by omega),ih (by omega) (by omega)]
      omega

end

-- One part of a field, with the bounds and names of the field.
structure FieldPart where
  low : Int
  high : Int
  names : List (Bytes × Int)
  text : Bytes

namespace FieldPart

def Parses (part : FieldPart) : Prop := ∃ bits, parsePart part.low part.high part.names part.text = .ok bits

-- The first number of the range plus the step is more than the largest integer.
def Overflows (part : FieldPart) : Prop := trimSpace part.text ≠ [] ∧ ∃ base step start stop,
  splitStep (trimSpace part.text) = .ok (base,step) ∧
    parseRange base part.low part.high part.names = .ok (start,stop) ∧ 2^63 ≤ start + step

structure Sized (part : FieldPart) : Prop where
  low : 0 ≤ part.low
  room : part.low ≤ part.high
  high : part.high < 64

end FieldPart

-- The parts are read one by one, up to the first that does not parse.
def Calm : List FieldPart → Prop
  | [] => True
  | part :: rest => ¬ part.Overflows ∧ (part.Parses → Calm rest)

theorem calm_append : Calm (parts ++ more) ↔ Calm parts ∧ ((∀ part ∈ parts, part.Parses) → Calm more) := by
  induction parts with
  | nil => simp [Calm]
  | cons _ _ ih =>
    simp only [List.cons_append,Calm,ih,List.forall_mem_cons]
    tauto

theorem splitStep_spares (part : Bytes) : Spares Panics (splitStep part) := by
  unfold splitStep
  split
  · exact spares_ok _
  · split
    · exact spares_ite (fun _ => spares_error id) (fun _ => spares_ok _)
    · exact spares_error id
  · exact spares_error id

theorem parseValue_spares (names : List (Bytes × Int)) (text : Bytes) : Spares Panics (parseValue names text) := by
  unfold parseValue
  split
  · exact spares_ok _
  · split
    · exact spares_ok _
    · exact spares_error id

theorem parseRange_spares (part : Bytes) (low high : Int) (names : List (Bytes × Int)) :
    Spares Panics (parseRange part low high names) := by
  refine spares_ite (fun _ => spares_ok _) (fun _ => ?_)
  split
  · refine spares_bind (parseValue_spares _ _) (fun value _ => ?_)
    exact spares_ite (fun _ => spares_error id) (fun _ => spares_ok _)
  · refine spares_bind (parseValue_spares _ _) (fun first _ => spares_bind (parseValue_spares _ _) (fun last _ => ?_))
    exact spares_ite (fun _ => spares_error id) (fun _ => spares_ok _)
  · exact spares_error id

theorem parsePart_spares_iff {part : FieldPart} (sized : part.Sized) :
    Spares Panics (parsePart part.low part.high part.names part.text) ↔ ¬ part.Overflows := by
  unfold parsePart FieldPart.Overflows
  by_cases empty : trimSpace part.text = []
  · rw [if_pos empty]
    exact iff_of_true (spares_error id) (fun never => never.1 empty)
  rw [if_neg empty,spares_bind_iff,and_iff_right (splitStep_spares _)]
  have counter : ∀ {base step start stop}, splitStep (trimSpace part.text) = .ok (base,step) →
      parseRange base part.low part.high part.names = .ok (start,stop) →
        (Spares Panics (rangeBits stop step ((stop - start).toNat + 2) start) ↔ start + step < 2^63) := by
    intro base step start stop split range
    obtain ⟨positive,large⟩ := splitStep_bounds split
    obtain ⟨_,order,_⟩ := parseRange_bounds sized.room range
    have low := sized.low
    have high := sized.high
    rw [rangeBits_spares_iff positive large (by omega) (by omega) (by omega)]
    exact ⟨fun spared => spared order,fun small _ => small⟩
  constructor
  · rintro spared ⟨_,base,step,start,stop,split,range,wraps⟩
    have late := (spares_bind_iff.mp (spared (base,step) split)).2 (start,stop) range
    have small := (counter split range).mp late
    omega
  · rintro fits ⟨base,step⟩ split
    refine spares_bind (parseRange_spares _ _ _ _) ?_
    rintro ⟨start,stop⟩ range
    apply (counter split range).mpr
    by_contra wraps
    exact fits ⟨empty,base,step,start,stop,split,range,by omega⟩

def partsOf (low high : Int) (names : List (Bytes × Int)) (field : Bytes) : List FieldPart :=
  (field.splitOn 44).map (FieldPart.mk low high names)

section
variable {low high : Int} {names : List (Bytes × Int)}

theorem spares_map {f : α → β} : Spares Panics (result.map f) ↔ Spares Panics result := by
  cases result with
  | ok => exact iff_of_true (spares_ok _) (spares_ok _)
  | error =>
    rw [Except.map,spares_error_iff,spares_error_iff]

theorem spares_inField {name : String} {result : Except Fault α} :
    Spares Panics (result.mapError (.inField name)) ↔ Spares Panics result := by
  cases result with
  | ok => exact iff_of_true (spares_ok _) (spares_ok _)
  | error =>
    rw [Except.mapError,spares_error_iff,spares_error_iff,Panics]

theorem foldParts_parses {texts : List Bytes} {start : Nat} :
    (∃ bits, texts.foldlM (fun bits text => (parsePart low high names text).map (bits ||| ·)) start = .ok bits) ↔
      ∀ part ∈ texts.map (FieldPart.mk low high names), part.Parses := by
  induction texts generalizing start with
  | nil => exact iff_of_true ⟨start,rfl⟩ (List.forall_mem_nil _)
  | cons text _ ih =>
    rw [List.map_cons,List.forall_mem_cons]
    simp only [List.foldlM_cons,FieldPart.Parses]
    cases part : parsePart low high names text with
    | ok found =>
      refine ih.trans ⟨fun others => ⟨⟨found,rfl⟩,others⟩,fun both => both.2⟩
    | error => simp [Except.map,bind,Except.bind]

theorem foldParts_spares (sized : ∀ text, (FieldPart.mk low high names text).Sized) (texts : List Bytes) (start : Nat) :
    Spares Panics (texts.foldlM (fun bits text => (parsePart low high names text).map (bits ||| ·)) start) ↔
      Calm (texts.map (FieldPart.mk low high names)) := by
  induction texts generalizing start with
  | nil => exact iff_of_true (spares_ok _) trivial
  | cons text _ ih =>
    rw [List.foldlM_cons,spares_bind_iff,spares_map,List.map_cons,Calm]
    refine and_congr (parsePart_spares_iff (sized text)) ?_
    constructor
    · rintro spared ⟨bits,parsed⟩
      exact (ih (start ||| bits)).mp (spared _ (by rw [parsed]; rfl))
    · intro calm next mapped
      rw [ih]
      obtain ⟨found,part,_⟩ := map_ok_iff.mp mapped
      exact calm ⟨found,part⟩

-- A field whose result only counts as parsed or not for what comes after it.
theorem field_spares_iff (sized : ∀ text, (FieldPart.mk low high names text).Sized) {next : Nat → Except Fault Cron}
    (rest : ∀ bits, Spares Panics (next bits) ↔ Calm more) :
    Spares Panics ((parseField field low high names).mapError (.inField name) >>= next) ↔
      Calm (partsOf low high names field ++ more) := by
  have parses := @foldParts_parses low high names (field.splitOn 44) 0
  rw [spares_bind_iff,spares_inField,calm_append]
  refine and_congr (foldParts_spares sized _ 0) ?_
  rw [partsOf,← parses]
  constructor
  · rintro spared ⟨bits,parsed⟩
    exact (rest bits).mp (spared bits (by rw [parseField,parsed]; rfl))
  · intro calm bits parsed
    exact (rest bits).mpr (calm ⟨bits,mapError_ok parsed⟩)

end

-- The bounds and names of the six fields.
def cronShapes : List (Int × Int × List (Bytes × Int)) :=
  [(0,59,[]),(0,59,[]),(0,23,[]),(1,31,[]),(1,12,monthNames),(0,7,dayNames)]

def sixParts (texts : List Bytes) : List FieldPart :=
  if texts.length = 6 then
    (cronShapes.zipWith (fun shape text => partsOf shape.1 shape.2.1 shape.2.2 text) texts).flatten
  else []

def cronParts (text : Bytes) : List FieldPart :=
  sixParts (if (words text).length = 5 then ascii "0" :: words text else words text)

theorem six_texts {texts : List Bytes} (six : texts.length = 6) :
    ∃ second minute hour day month weekday, texts = [second,minute,hour,day,month,weekday] := by
  obtain ⟨second,rest,rfl⟩ := List.exists_of_length_succ _ six
  obtain ⟨minute,rest,rfl⟩ := List.exists_of_length_succ rest (Nat.succ.inj six)
  obtain ⟨hour,rest,rfl⟩ := List.exists_of_length_succ rest (Nat.succ.inj (Nat.succ.inj six))
  obtain ⟨day,month,weekday,rfl⟩ := List.length_eq_three.mp (Nat.succ.inj (Nat.succ.inj (Nat.succ.inj six)))
  exact ⟨second,minute,hour,day,month,weekday,rfl⟩

theorem parseFields_spares_iff (expr : Bytes) (texts : List Bytes) :
    Spares Panics (parseFields expr texts) ↔ Calm (sixParts texts) := by
  have sized : ∀ {low high : Int} {names : List (Bytes × Int)}, 0 ≤ low ∧ low ≤ high ∧ high < 64 →
      ∀ text, (FieldPart.mk low high names text).Sized := fun bounds _ => ⟨bounds.1,bounds.2.1,bounds.2.2⟩
  unfold parseFields
  split
  · apply field_spares_iff (sized (by decide))
    intro _
    apply field_spares_iff (sized (by decide))
    intro _
    apply field_spares_iff (sized (by decide))
    intro _
    apply field_spares_iff (sized (by decide))
    intro _
    apply field_spares_iff (sized (by decide))
    intro _
    apply field_spares_iff (sized (by decide))
    intro _
    exact iff_of_true (spares_ok _) trivial
  · rename_i other
    have fewer : ¬ texts.length = 6 := by
      intro six
      obtain ⟨_,_,_,_,_,_,same⟩ := six_texts six
      exact other _ _ _ _ _ _ same
    rw [sixParts,if_neg fewer]
    exact iff_of_true (spares_error id) trivial

theorem parseCron_spares_iff (text : Bytes) : Spares Panics (parseCron text) ↔ Calm (cronParts text) := by
  unfold parseCron
  dsimp only
  by_cases empty : trimSpace text = []
  · rw [if_pos empty,cronParts,words,empty]
    exact iff_of_true (spares_error id) trivial
  · rw [if_neg empty,cronParts,words]
    split <;> exact parseFields_spares_iff _ _

-- A value or an error comes back, and a value has its sets in bounds.
structure Safe (text : Bytes) : Prop where
  returns : Spares Panics (parseCron text)
  inBounds : ∀ c, parseCron text = .ok c → InBounds c

theorem cron_parse_safe_iff (text : Bytes) : (∀ stop step start, 0 < step → step < 2^63 → stop < 64 → 0 ≤ start →
      Loops stop step start (rangeBits stop step ((stop - start).toNat + 2) start)) ∧
    (Safe text ↔ Calm (cronParts text)) := by
  constructor
  · intro stop step start positive large short nonneg
    exact rangeBits_loops positive large short nonneg (by omega)
  · rw [← parseCron_spares_iff]
    exact ⟨fun safe => safe.returns,fun spared => ⟨spared,fun c parsed => parseCron_inBounds parsed⟩⟩

theorem largest_step_panics : ∃ fault, parseCron (ascii "1/9223372036854775807 * * * *") = .error fault ∧ Panics fault :=
  ⟨.inField "minutes" .negativeShift,by decide +kernel,trivial⟩

end Kronos.CronParse
