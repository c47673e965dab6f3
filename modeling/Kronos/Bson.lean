import Mathlib.Data.List.MinMax
import Kronos.Decimal

namespace Kronos.Bson
open ByteRange Decimal

-- The values the driver writes. A document is its map in the order of one
-- iteration over it, an array the map of its indices likewise.
inductive Value where
  | null | double (bits : UInt64) | string (text : Bytes) | document (entries : List (Bytes × Value))
  | array (items : List (Nat × Value)) | wrapped (type : UInt8) (data : Value) | int32 (n : Int32) | int64 (n : Int64)
  | bool (b : Bool) | int (n : Int64) | time (seconds : Int64) | binary (data : Bytes) | other

-- The length is filled in when the elements are written.
def framed (elements : Bytes) : Bytes := putLE 4 (elements.length + 5) ++ (elements ++ [0])

mutual
def writeBSONValue : Value → Bytes
  | .null => [0]
  | .double bits => 1 :: putLE 8 bits.toNat
  | .string text => 2 :: (putLE 4 (text.length + 1) ++ text ++ [0])
  | .document entries => 3 :: framed (writeElements entries)
  | .array items => 4 :: framed (writeItems items)
  | .wrapped type data => type :: writeBSONValue data
  | .int32 n => 16 :: putLE 4 n.toBitVec.toNat
  | .int64 _ => [18]
  | .bool b => [8,if b then 1 else 0]
  | .int n => 16 :: putLE 4 n.toBitVec.toNat
  | .time seconds => 9 :: putLE 8 (seconds * 1000).toBitVec.toNat
  | .binary data => 5 :: (putLE 4 data.length ++ data)
  | .other => [10]

def writeElements : List (Bytes × Value) → Bytes
  | [] => []
  | (key,value) :: rest => key ++ 0 :: (writeBSONValue value ++ writeElements rest)

def writeItems : List (Nat × Value) → Bytes
  | [] => []
  | (index,value) :: rest => decimal index ++ 0 :: (writeBSONValue value ++ writeItems rest)
end

def writeBSONDocument (doc : List (Bytes × Value)) : Bytes := framed (writeElements doc)

inductive Parsed where
  | nil | double (bits : Nat) | text (bytes : Bytes) | bytes (data : Bytes) | bool (b : Bool) | int32 (n : Int32)
  | int64 (n : Int64) | document (entries : List (Bytes × UInt8 × Parsed))

-- A map, the newest assignment first.
abbrev Doc := List (Bytes × UInt8 × Parsed)

inductive Stop where
  | outOfRange | endless
  deriving DecidableEq, Repr

-- One turn of the loop over a document: the bytes that follow the document in
-- the slice, the bytes behind the last one looked at, and whether the turn
-- reads a string with length 0.
structure Element where
  spare : Nat
  left : Nat
  hollow : Bool
  deriving DecidableEq, Repr

abbrev Scan (α : Type) := List Element × Except Stop α

def Scan.next (scan : Scan α) (rest : α → Scan β) : Scan β :=
  match scan.2 with
  | .error stop => (scan.1,.error stop)
  | .ok a => (scan.1 ++ (rest a).1,(rest a).2)

-- A slice expression from the present position on.
def cut (size : Int) (rest : Bytes) : Scan Bytes :=
  if 0 ≤ size ∧ size ≤ rest.length then ([],.ok (rest.take size.toNat)) else ([],.error .outOfRange)

-- What parseBSONValue took: no value where it consumed nothing.
structure Taken where
  value : Option Parsed
  left : Nat
  next : Bytes

def refused (left : Nat) : Scan Taken := ([],.ok ⟨none,left,[]⟩)

def fixed (size : Nat) (make : Bytes → Parsed) (rest : Bytes) : Scan Taken :=
  if rest.length < size then refused rest.length
  else (cut size rest).next fun bytes => ([],.ok ⟨some (make bytes),rest.length - size,rest.drop size⟩)

-- A length of four bytes and what is made of the bytes after it.
def sized (rest : Bytes) (body : Nat → Bytes → Scan Taken) : Scan Taken :=
  if rest.length < 4 then refused rest.length
  else (cut 4 rest).next fun length => body (getLE length) (rest.drop 4)

def parseBSONValue (nested : Bytes → Scan (Option (Doc × Nat))) (tp : UInt8) (rest : Bytes) : Scan Taken :=
  if tp = 1 then fixed 8 (fun bytes => .double (getLE bytes)) rest
  else if tp = 2 then sized rest fun length body =>
    if body.length < length then refused body.length
    else (cut (length - 1) body).next fun text => ([],.ok ⟨some (.text text),body.length - (length - 1),body.drop length⟩)
  else if tp = 3 ∨ tp = 4 then
    if rest.length < 4 then refused rest.length
    else (nested rest).next fun found =>
      match found with
      | none => refused (rest.length - 4)
      | some (doc,length) => ([],.ok ⟨some (.document doc),rest.length - length,rest.drop length⟩)
  else if tp = 5 then sized rest fun length body =>
    if body.length < length + 1 then refused body.length
    else (cut length body).next fun data => ([],.ok ⟨some (.bytes data),body.length - length,body.drop (length + 1)⟩)
  else if tp = 7 then fixed 12 .bytes rest
  else if tp = 8 then fixed 1 (fun bytes => .bool (bytes ≠ [0])) rest
  else if tp = 9 ∨ tp = 17 ∨ tp = 18 then fixed 8 (fun bytes => .int64 (Int64.ofNat (getLE bytes))) rest
  else if tp = 10 then ([],.ok ⟨some .nil,rest.length,rest.drop 1⟩)
  else if tp = 16 then fixed 4 (fun bytes => .int32 (Int32.ofNat (getLE bytes))) rest
  else refused rest.length

-- readCString: the bytes up to the next NUL, which is skipped.
def readCString (rest : Bytes) : Bytes × Bytes :=
  (rest.takeWhile fun byte => decide (byte ≠ 0),(rest.dropWhile fun byte => decide (byte ≠ 0)).tail)

def parseBSONDocumentWith (loop : Nat → Bytes → Scan Doc) (data : Bytes) : Scan (Option (Doc × Nat)) :=
  if data.length < 4 then ([],.ok none)
  else
    let docLen := getLE (data.take 4)
    if data.length < docLen ∨ docLen < 5 then ([],.ok none)
    else (loop (data.length - docLen) (data.drop 4)).next fun doc => ([],.ok (some (doc,docLen)))

def hollow (tp : UInt8) (rest : Bytes) : Bool := tp = 2 ∧ 4 ≤ rest.length ∧ getLE (rest.take 4) = 0

def logged (spare : Nat) (tp : UInt8) (rest : Bytes) (scan : Scan Taken) : Scan Taken :=
  let left := match scan.2 with
    | .error _ => rest.length
    | .ok taken => taken.left
  (⟨spare,left,hollow tp rest⟩ :: scan.1,scan.2)

def parseElements : Nat → Nat → Bytes → Doc → Scan Doc
  | 0,_,_,_ => ([],.error .endless)
  | fuel+1,spare,rest,doc =>
    if rest.length ≤ spare + 1 then ([],.ok doc)
    else (cut 1 rest).next fun first =>
      if first = [0] then ([],.ok doc)
      else
        let tp := first.headD 0
        let named := readCString rest.tail
        (logged spare tp named.2 (parseBSONValue
          (parseBSONDocumentWith fun spare rest => parseElements fuel spare rest []) tp named.2)).next fun taken =>
            match taken.value with
            | none => ([],.ok doc)
            | some value => parseElements fuel spare taken.next ((named.1,tp,value) :: doc)

-- Every turn takes a byte, so the bytes bound the turns at all depths.
def parseBSONDocument (data : Bytes) : Scan (Option (Doc × Nat)) :=
  parseBSONDocumentWith (fun spare rest => parseElements data.length spare rest []) data

-- No string of length 0 is read, if and only if there is a result.
def Sound (scan : Scan α) : Prop := (∃ a, scan.2 = .ok a) ↔ ∀ element ∈ scan.1, element.hollow = false

theorem sound_ok (a : α) : Sound (([],.ok a) : Scan α) := by simp [Sound]

theorem sound_next {rest : α → Scan β} (sound : Sound scan) (later : ∀ a, scan.2 = .ok a → Sound (rest a)) :
    Sound (scan.next rest) := by
  obtain ⟨_,result⟩ := scan
  cases result with
  | error =>
    refine ⟨?_,fun solid => ?_⟩
    · rintro ⟨_,impossible⟩
      cases impossible
    · obtain ⟨_,impossible⟩ := sound.mpr solid
      cases impossible
  | ok a =>
    have first := sound.mp ⟨a,rfl⟩
    have last := later a rfl
    exact ⟨fun done => List.forall_mem_append.mpr ⟨first,last.mp done⟩,
      fun solid => last.mpr (List.forall_mem_append.mp solid).2⟩

theorem next_ok {scan : Scan α} {rest : α → Scan β} (done : (scan.next rest).2 = .ok b) :
    ∃ a, scan.2 = .ok a ∧ (rest a).2 = .ok b := by
  obtain ⟨_,result⟩ := scan
  cases result with
  | error => cases done
  | ok a => exact ⟨a,rfl,done⟩

theorem cut_inside {rest : Bytes} (inside : size ≤ rest.length) : cut size rest = ([],.ok (rest.take size)) := by
  rw [cut,if_pos ⟨by omega,by omega⟩]
  rfl

-- The format, over the bytes alone: what a value takes by its type and by the
-- length in front of it, where that much is there.
def lengthField (body : Bytes) : Option Nat := if body.length < 4 then none else some (getLE (body.take 4))

def extent (tp : UInt8) (length : Option Nat) : Option Nat :=
  if tp = 1 ∨ tp = 9 ∨ tp = 17 ∨ tp = 18 then some 8
  else if tp = 2 then length.map (· + 4)
  else if tp = 3 ∨ tp = 4 then length.filter (5 ≤ ·)
  else if tp = 5 then length.map (· + 5)
  else if tp = 7 then some 12
  else if tp = 8 then some 1
  else if tp = 16 then some 4
  else none

-- A null takes a byte that it does not have.
def takes (tp : UInt8) (body : Bytes) : Option Nat :=
  if tp = 10 then some 1 else (extent tp (lengthField body)).filter (· ≤ body.length)

-- The terminator of a string and the last byte of a binary are not looked at; of a
-- value that is refused, the length is.
def seen (tp : UInt8) (body : Bytes) : Nat :=
  if tp = 10 then 0
  else match takes tp body with
    | some size => if tp = 2 ∨ tp = 5 then size - 1 else size
    | none => if (tp = 2 ∨ tp = 3 ∨ tp = 4 ∨ tp = 5) ∧ 4 ≤ body.length then 4 else 0

def afterKey (text : Bytes) : Bytes := (text.dropWhile fun byte => decide (byte ≠ 0)).tail

-- In a document, of which some bytes and the spare ones behind it are left, stands
-- an element: its type, the bytes from its value on and the spare ones behind
-- the document it is in.
inductive Stands : Nat → Bytes → Nat → UInt8 → Bytes → Prop
  | here {spare : Nat} {tp : UInt8} {text : Bytes} : spare < text.length → tp ≠ 0 →
      Stands spare (tp :: text) spare tp (afterKey text)
  | later {spare size outer : Nat} {tp type : UInt8} {text body : Bytes} : spare < text.length → tp ≠ 0 →
      takes tp (afterKey text) = some size → Stands spare ((afterKey text).drop size) outer type body →
        Stands spare (tp :: text) outer type body
  | inner {spare size outer : Nat} {tp type : UInt8} {text body : Bytes} : spare < text.length → tp = 3 ∨ tp = 4 →
      takes 3 (afterKey text) = some size →
        Stands ((afterKey text).length - size) ((afterKey text).drop 4) outer type body →
          Stands spare (tp :: text) outer type body

def Inside (spare : Nat) (tp : UInt8) (body : Bytes) : Prop :=
  hollow tp body = false ∧ spare ≤ body.length - seen tp body

-- The elements of a document and of those in it.
def Contained (data : Bytes) : Prop := ∀ size, takes 3 data = some size → ∀ outer tp body,
  Stands (data.length - size) (data.drop 4) outer tp body → Inside outer tp body

structure Follows (tp : UInt8) (body : Bytes) (inner : List Element) (scan : Scan Taken) : Prop where
  sound : Sound scan
  trace : scan.1 = inner
  left : ∀ taken, scan.2 = .ok taken → taken.left = body.length - seen tp body
  next : ∀ taken, scan.2 = .ok taken → (taken.value = none ∧ takes tp body = none) ∨
    ∃ size value, taken.value = some value ∧ takes tp body = some size ∧ taken.next = body.drop size

theorem follows_none (none : takes tp body = none) (left : seen tp body = size) :
    Follows tp body [] (refused (body.length - size)) := by
  refine ⟨sound_ok _,rfl,?_,?_⟩
  · rintro _ ⟨⟩
    rw [left]
  · rintro _ ⟨⟩
    exact .inl ⟨rfl,none⟩

theorem follows_some {read : Parsed} (some : takes tp body = some size) (left : seen tp body = looked) :
    Follows tp body [] ([],.ok ⟨Option.some read,body.length - looked,body.drop size⟩) := by
  refine ⟨sound_ok _,rfl,?_,?_⟩
  · rintro _ ⟨⟩
    rw [left]
  · rintro _ ⟨⟩
    exact .inr ⟨size,read,rfl,some,rfl⟩

theorem follows_next {scan : Scan α} {after : α → Scan Taken} (sound : Sound scan)
    (follows : ∀ a, scan.2 = .ok a → Follows tp body [] (after a)) : Follows tp body scan.1 (scan.next after) := by
  refine ⟨sound_next sound fun a done => (follows a done).sound,?_,fun taken done => ?_,fun taken done => ?_⟩
  · rw [Scan.next]
    split
    · rfl
    · rename_i a done
      rw [(follows a done).trace,List.append_nil]
  · obtain ⟨a,first,last⟩ := next_ok done
    exact (follows a first).left taken last
  · obtain ⟨a,first,last⟩ := next_ok done
    exact (follows a first).next taken last

theorem fixed_follows {tp : UInt8} (format : ∀ length, extent tp length = some size)
    (plain : tp ∉ [2,3,4,5,10]) (make : Bytes → Parsed) (body : Bytes) : Follows tp body [] (fixed size make body) := by
  simp only [List.mem_cons,List.not_mem_nil,or_false,not_or] at plain
  rw [fixed]
  split
  · rename_i short
    have none : takes tp body = none := by simp [takes,format,plain,Option.filter,Nat.not_le.mpr short]
    exact @follows_none tp body 0 none (by simp [seen,none,plain])
  · rename_i long
    rw [cut_inside (by omega)]
    have some : takes tp body = some size := by simp [takes,format,plain,Option.filter,Nat.not_lt.mp long]
    exact follows_some some (by simp [seen,some,plain])

theorem sized_follows {tp : UInt8} {parse : Nat → Bytes → Scan Taken} (counted : tp = 2 ∨ tp = 5)
    (follows : ∀ length, lengthField body = some length → 4 ≤ body.length →
      Follows tp body [] (parse length (body.drop 4))) : Follows tp body [] (sized body parse) := by
  rw [sized]
  split
  · rename_i short
    have field : lengthField body = none := if_pos short
    have none : takes tp body = none := by
      rcases counted with rfl | rfl <;> simp [takes,extent,field]
    exact @follows_none tp body 0 none (by simp [seen,none,Nat.not_le.mpr short])
  · rename_i long
    rw [show (4 : Int) = ((4 : Nat) : Int) from rfl,cut_inside (by omega)]
    exact follows _ (if_neg long) (Nat.not_lt.mp long)

-- All but the last of the bytes are cut out.
theorem counted_follows {tp : UInt8} (counted : tp = 2 ∨ tp = 5) (long : 4 ≤ body.length)
    (format : extent tp (lengthField body) = some (less + 5)) (make : Bytes → Parsed) :
    Follows tp body [] (if (body.drop 4).length < less + 1 then refused (body.drop 4).length
      else (cut less (body.drop 4)).next fun bytes =>
        ([],.ok ⟨some (make bytes),(body.drop 4).length - less,(body.drop 4).drop (less + 1)⟩)) := by
  have plain : tp ≠ 10 := by rcases counted with rfl | rfl <;> decide
  rw [List.length_drop]
  split
  · have none : takes tp body = none := by
      simp only [takes,if_neg plain,format,Option.filter,decide_eq_true_eq,ite_eq_right_iff]
      omega
    refine follows_none none ?_
    rcases counted with rfl | rfl <;> simp [seen,none,long]
  · have some : takes tp body = some (less + 5) := by
      simp only [takes,if_neg plain,format,Option.filter,decide_eq_true_eq,ite_eq_left_iff]
      omega
    rw [cut_inside (by rw [List.length_drop]; omega)]
    rw [Nat.sub_sub,List.drop_drop,show 4 + (less + 1) = less + 5 by omega]
    refine follows_some some ?_
    rcases counted with rfl | rfl <;> simp [seen,some] <;> omega

theorem document_takes (loop : Nat → Bytes → Scan Doc) (data : Bytes) : parseBSONDocumentWith loop data =
    match takes 3 data with
    | none => ([],.ok none)
    | some size => (loop (data.length - size) (data.drop 4)).next fun doc => ([],.ok (some (doc,size))) := by
  have format : takes 3 data = ((lengthField data).filter (5 ≤ ·)).filter (· ≤ data.length) := rfl
  rw [parseBSONDocumentWith,format,lengthField]
  split
  · rfl
  · dsimp only
    split
    · rename_i out
      by_cases long : 5 ≤ getLE (data.take 4)
      · simp [Option.filter_some,long,show ¬ getLE (data.take 4) ≤ data.length by omega]
      · simp [Option.filter_some,long]
    · rename_i fits
      simp [Option.filter_some,show 5 ≤ getLE (data.take 4) ∧ getLE (data.take 4) ≤ data.length by omega]

theorem document_follows {nested : Bytes → Scan (Option (Doc × Nat))} (sound : Sound (nested body))
    (frame : ∀ found, (nested body).2 = .ok found → found.map Prod.snd = takes 3 body)
    (bare : takes 3 body = none → (nested body).1 = []) (either : tp = 3 ∨ tp = 4) :
    Follows tp body (nested body).1 (parseBSONValue nested tp body) := by
  have same : takes 3 body = takes tp body := by rcases either with rfl | rfl <;> rfl
  rw [parseBSONValue,if_neg (by rcases either with rfl | rfl <;> decide),
    if_neg (by rcases either with rfl | rfl <;> decide),if_pos either]
  split
  · rename_i short
    have absent : takes 3 body = none := by simp [takes,extent,lengthField,short]
    rw [bare absent]
    exact @follows_none tp body 0 (same ▸ absent) (by simp [seen,← same,absent,Nat.not_le.mpr short])
  · rename_i long
    refine follows_next sound fun found done => ?_
    have size := (frame found done).trans same
    rcases found with _ | ⟨doc,length⟩
    · refine follows_none size.symm ?_
      rcases either with rfl | rfl <;> simp [seen,← size,Nat.not_lt.mp long]
    · refine follows_some size.symm ?_
      rcases either with rfl | rfl <;> simp [seen,← size]

theorem plain_follows {nested : Bytes → Scan (Option (Doc × Nat))} (plain : ¬ (tp = 3 ∨ tp = 4))
    (solid : hollow tp body = false) : Follows tp body [] (parseBSONValue nested tp body) := by
  rw [parseBSONValue]
  split
  · rename_i same
    subst same
    exact fixed_follows (fun _ => rfl) (by decide) ..
  split
  · rename_i same
    subst same
    refine sized_follows (.inl rfl) fun length field long => ?_
    have filled : length ≠ 0 := by
      rintro rfl
      rw [lengthField,if_neg (Nat.not_lt.mpr long)] at field
      exact of_decide_eq_false solid ⟨rfl,long,Option.some.inj field⟩
    obtain ⟨less,rfl⟩ := Nat.exists_eq_succ_of_ne_zero filled
    have follows := counted_follows (.inl rfl) long (by rw [field]; rfl) .text
    rwa [show (less : Int) = ((less + 1 : Nat) : Int) - 1 by omega] at follows
  split
  · rename_i same
    subst same
    exact sized_follows (.inr rfl) fun length field long => counted_follows (.inr rfl) long (by rw [field]; rfl) .bytes
  split
  · rename_i same
    subst same
    exact fixed_follows (fun _ => rfl) (by decide) ..
  split
  · rename_i same
    subst same
    exact fixed_follows (fun _ => rfl) (by decide) ..
  split
  · rename_i same
    rcases same with rfl | rfl | rfl <;> exact fixed_follows (fun _ => rfl) (by decide) ..
  split
  · rename_i same
    subst same
    exact @follows_some 10 body 1 0 .nil rfl rfl
  split
  · rename_i same
    subst same
    exact fixed_follows (fun _ => rfl) (by decide) ..
  · have none : takes tp body = none := by simp [*,takes,extent]
    exact @follows_none tp body 0 none (by simp [*,seen])

theorem hollow_stops {nested : Bytes → Scan (Option (Doc × Nat))} (empty : hollow tp rest = true) :
    (parseBSONValue nested tp rest).2 = .error .outOfRange := by
  obtain ⟨rfl,long,zero⟩ := of_decide_eq_true empty
  rw [parseBSONValue,if_neg (by decide),if_pos rfl,sized,if_neg (by omega),show (4 : Int) = ((4 : Nat) : Int) from rfl,
    cut_inside long]
  simp [Scan.next,zero,cut]

theorem logged_sound (stops : hollow tp rest = true → scan.2 = .error .outOfRange)
    (sound : hollow tp rest = false → Sound scan) : Sound (logged spare tp rest scan) := by
  cases empty : hollow tp rest with
  | true =>
    refine ⟨?_,fun solid => ?_⟩
    · rintro ⟨_,done⟩
      cases (stops empty).symm.trans done
    · cases empty.symm.trans (solid _ List.mem_cons_self)
  | false => simpa [Sound,logged,empty] using sound empty

def Element.Safe (element : Element) : Prop := element.hollow = false ∧ element.spare ≤ element.left

structure Exact (spare : Nat) (rest : Bytes) (scan : Scan α) : Prop where
  sound : Sound scan
  traced : (∀ element ∈ scan.1, element.Safe) ↔
    ∀ outer tp body, Stands spare rest outer tp body → Inside outer tp body

theorem next_safe {scan : Scan α} {after : α → Scan β} : (∀ element ∈ (scan.next after).1, element.Safe) ↔
    (∀ element ∈ scan.1, element.Safe) ∧ ∀ a, scan.2 = .ok a → ∀ element ∈ (after a).1, element.Safe := by
  obtain ⟨_,_ | a⟩ := scan
  · simp [Scan.next]
  · rw [Scan.next,List.forall_mem_append]
    simp

section
variable {loop : Nat → Bytes → Scan Doc} {data : Bytes}

theorem takes_drop (some : takes 3 data = some size) : (data.drop 4).length < data.length := by
  rw [List.length_drop]
  have long : ¬ data.length < 4 := by
    intro short
    simp [takes,extent,lengthField,short] at some
  omega

theorem document_frame (done : (parseBSONDocumentWith loop data).2 = .ok found) : found.map Prod.snd = takes 3 data := by
  rw [document_takes] at done
  split at done
  · rename_i none
    cases done
    exact none.symm
  · rename_i some
    obtain ⟨_,_,last⟩ := next_ok done
    cases last
    exact some.symm

theorem document_bare (none : takes 3 data = none) : (parseBSONDocumentWith loop data).1 = [] := by
  rw [document_takes,none]

theorem document_exact (inner : ∀ size, takes 3 data = some size →
      Exact (data.length - size) (data.drop 4) (loop (data.length - size) (data.drop 4))) :
    Sound (parseBSONDocumentWith loop data) ∧
      ((∀ element ∈ (parseBSONDocumentWith loop data).1, element.Safe) ↔ Contained data) := by
  rw [document_takes,Contained]
  cases same : takes 3 data with
  | none => exact ⟨sound_ok _,by simp⟩
  | some size =>
    have within := inner size same
    refine ⟨sound_next within.sound fun _ _ => sound_ok _,?_⟩
    rw [next_safe,within.traced]
    simp

end

theorem hollow_exact {nested : Bytes → Scan (Option (Doc × Nat))} {after : Taken → Scan Doc}
    (room : spare < text.length) (real : tp ≠ 0) (empty : hollow tp (afterKey text) = true) : Exact spare (tp :: text)
      ((logged spare tp (afterKey text) (parseBSONValue nested tp (afterKey text))).next after) := by
  have stops := @hollow_stops tp (afterKey text) nested empty
  refine ⟨sound_next (logged_sound (fun _ => stops) fun solid => ?_) fun taken done => ?_,
    fun safe => ?_,fun inside => ?_⟩
  · cases empty.symm.trans solid
  · cases stops.symm.trans done
  · cases empty.symm.trans (List.forall_mem_cons.mp (next_safe.mp safe).1).1.1
  · cases empty.symm.trans (inside _ _ _ (.here room real)).1

theorem element_exact {nested : Bytes → Scan (Option (Doc × Nat))} {after : Taken → Scan Doc}
    (room : spare < text.length) (real : tp ≠ 0)
    (value : hollow tp (afterKey text) = false → ∃ inner,
      Follows tp (afterKey text) inner (parseBSONValue nested tp (afterKey text)) ∧
        ((∀ element ∈ inner, element.Safe) ↔ (tp = 3 ∨ tp = 4 → Contained (afterKey text))))
    (last : ∀ taken, taken.value = none → after taken = ([],.ok doc))
    (later : ∀ taken size, taken.value ≠ none → taken.next = (afterKey text).drop size →
      Exact spare ((afterKey text).drop size) (after taken)) : Exact spare (tp :: text)
        ((logged spare tp (afterKey text) (parseBSONValue nested tp (afterKey text))).next after) := by
  cases empty : hollow tp (afterKey text) with
  | true => exact hollow_exact room real empty
  | false =>
    obtain ⟨inner,follows,within⟩ := value empty
    rw [← follows.trace] at within
    have read (safe : ∀ element ∈ (parseBSONValue nested tp (afterKey text)).1, element.Safe) :
        ∃ taken, (parseBSONValue nested tp (afterKey text)).2 = .ok taken :=
      follows.sound.mpr fun element member => (safe element member).1
    have others {taken : Taken} (done : (parseBSONValue nested tp (afterKey text)).2 = .ok taken) :
        (takes tp (afterKey text) = none ∧ after taken = ([],.ok doc)) ∨
          ∃ size, takes tp (afterKey text) = some size ∧ Exact spare ((afterKey text).drop size) (after taken) := by
      rcases follows.next taken done with ⟨none,stop⟩ | ⟨size,value,some,same,next⟩
      · exact .inl ⟨stop,last taken none⟩
      · exact .inr ⟨size,same,later taken size (by simp [some]) next⟩
    have head {taken : Taken} (done : (parseBSONValue nested tp (afterKey text)).2 = .ok taken) :
        Element.Safe ⟨spare,match (parseBSONValue nested tp (afterKey text)).2 with
          | .error _ => (afterKey text).length
          | .ok taken => taken.left,hollow tp (afterKey text)⟩ ↔ Inside spare tp (afterKey text) := by
      rw [done,Element.Safe,Inside]
      dsimp only
      rw [follows.left taken done]
    refine ⟨sound_next (logged_sound (fun hollow => ?_) fun _ => follows.sound) fun taken done => ?_,
      fun safe => ?_,fun inside => ?_⟩
    · cases empty.symm.trans hollow
    · rcases others done with ⟨_,stop⟩ | ⟨_,_,exact_⟩
      · exact stop ▸ sound_ok doc
      · exact exact_.sound
    · obtain ⟨first,rest⟩ := next_safe.mp safe
      obtain ⟨start,first⟩ := List.forall_mem_cons.mp first
      obtain ⟨taken,done⟩ := read first
      rintro outer type body (⟨_,_⟩ | ⟨_,_,some,stands⟩ | ⟨_,either,some,stands⟩)
      · exact (head done).mp start
      · rcases others done with ⟨none,_⟩ | ⟨size,same,exact_⟩
        · cases none.symm.trans some
        · cases same.symm.trans some
          exact exact_.traced.mp (rest taken done) outer type body stands
      · exact within.mp first either _ some outer type body stands
    · have first := within.mpr fun either size some outer type body stands =>
        inside outer type body (.inner room either some stands)
      obtain ⟨taken,done⟩ := read first
      refine next_safe.mpr ⟨List.forall_mem_cons.mpr ⟨(head done).mpr (inside _ _ _ (.here room real)),first⟩,fun taken done => ?_⟩
      rcases others done with ⟨_,stop⟩ | ⟨size,same,exact_⟩
      · rw [stop]
        exact fun _ member => absurd member List.not_mem_nil
      · exact exact_.traced.mpr fun outer type body stands => inside outer type body (.later room real same stands)

theorem elements_exact (fuel spare : Nat) (rest : Bytes) (doc : Doc) (enough : rest.length < fuel) :
    Exact spare rest (parseElements fuel spare rest doc) := by
  induction fuel generalizing spare rest doc with
  | zero => cases enough
  | succ fuel ih =>
    have stop (none : ∀ outer tp body, ¬ Stands spare rest outer tp body) : Exact spare rest ([],.ok doc) :=
      ⟨sound_ok doc,fun _ outer tp body stands => absurd stands (none outer tp body),
        fun _ _ member => absurd member List.not_mem_nil⟩
    rw [parseElements]
    split
    · rename_i short
      refine stop fun outer tp body stands => ?_
      cases stands <;> simp only [List.length_cons] at short <;> omega
    · rename_i long
      cases rest with
      | nil => simp at long
      | cons tp text =>
        simp only [List.length_cons] at long enough
        have less : (afterKey text).length ≤ text.length := by
          have key := (List.dropWhile_sublist (fun byte : UInt8 => decide (byte ≠ 0)) (l := text)).length_le
          rw [afterKey,List.length_tail]
          omega
        rw [show (1 : Int) = ((1 : Nat) : Int) from rfl,cut_inside (by simp)]
        change Exact _ _ (if [tp] = [0] then _ else _)
        split
        · rename_i zero
          refine stop fun outer type body stands => ?_
          cases zero
          cases stands with
          | here _ real => exact real rfl
          | later _ real => exact real rfl
          | inner _ either => exact absurd either (by decide)
        · rename_i real
          refine @element_exact spare tp text doc _ _ (by omega) (fun zero => real (by rw [zero])) (fun solid => ?_)
            (fun taken none => ?_) fun taken size some next => ?_
          · obtain ⟨sound,traced⟩ := @document_exact (fun spare rest => parseElements fuel spare rest []) (afterKey text)
              fun size some => ih _ _ [] (by have := takes_drop some; omega)
            by_cases either : tp = 3 ∨ tp = 4
            · exact ⟨_,document_follows sound (fun _ => document_frame) document_bare either,
                traced.trans ⟨fun all _ => all,fun all => all either⟩⟩
            · exact ⟨[],plain_follows either solid,by simp [either]⟩
          · rw [none]
          · obtain ⟨value,same⟩ := Option.ne_none_iff_exists'.mp some
            rw [same,next]
            exact ih _ _ _ (by rw [List.length_drop]; omega)

theorem parse_safe_iff (data : Bytes) : (∃ result, (parseBSONDocument data).2 = .ok result) ∧
        (∀ element ∈ (parseBSONDocument data).1, element.spare ≤ element.left) ↔ Contained data := by
  obtain ⟨sound,traced⟩ := @document_exact (fun spare rest => parseElements data.length spare rest []) data
    fun size some => elements_exact _ _ _ [] (takes_drop some)
  rw [← traced,show (∃ result, (parseBSONDocument data).2 = .ok result) ↔ _ from sound]
  exact forall₂_and.symm

theorem hollow_string_panics : (parseBSONDocument [12,0,0,0,2,97,0,0,0,0,0,0]).2 = .error .outOfRange := by
  rfl

-- A parsed map with the keys of a document and, under each of them, its value.
mutual
def Same : Value → Parsed → Prop
  | .null,.nil => True
  | .string text,.text read => text = read
  | .int32 n,.int32 m => n = m
  | .int64 n,.int64 m => n = m
  | .bool b,.bool c => b = c
  | .binary data,.bytes read => data = read
  | .document entries,.document read => SameEntries entries read ∧ ∀ key ∈ read.map Prod.fst, key ∈ entries.map Prod.fst
  | .array items,.document read =>
    SameItems items read ∧ ∀ key ∈ read.map Prod.fst, key ∈ items.map fun item => decimal item.1
  | _,_ => False

def SameEntries : List (Bytes × Value) → Doc → Prop
  | [],_ => True
  | (key,value) :: rest,read => (∃ found, read.lookup key = some found ∧ Same value found.2) ∧ SameEntries rest read

def SameItems : List (Nat × Value) → Doc → Prop
  | [],_ => True
  | (index,value) :: rest,read =>
    (∃ found, read.lookup (decimal index) = some found ∧ Same value found.2) ∧ SameItems rest read
end

theorem elements_keep (done : (parseElements fuel spare rest doc).2 = .ok last) : doc ⊆ last := by
  induction fuel generalizing rest doc with
  | zero => cases done
  | succ _ ih =>
    rw [parseElements] at done
    split at done
    · cases done
      exact List.Subset.refl _
    · obtain ⟨_,_,done⟩ := next_ok done
      split at done
      · cases done
        exact List.Subset.refl _
      · obtain ⟨_,_,done⟩ := next_ok done
        split at done
        · cases done
          exact List.Subset.refl _
        · exact List.Subset.trans (List.subset_cons_self ..) (ih done)

-- The writer puts the key before the type, so the first byte of the key is
-- taken for the type and the rest of it for the key.
theorem first_key (plain : 0 ∉ key) (done : (parseElements fuel spare (key ++ 0 :: rest) []).2 = .ok last) :
    last = [] ∨ key.tail.length < key.length ∧ key.tail ∈ last.map Prod.fst := by
  cases fuel with
  | zero => cases done
  | succ =>
    rw [parseElements] at done
    split at done
    · cases done
      exact .inl rfl
    · obtain ⟨_,head,done⟩ := next_ok done
      cases key with
      | nil =>
        rw [show (1 : Int) = ((1 : Nat) : Int) from rfl,cut_inside (by simp)] at head
        cases head
        cases done
        exact .inl rfl
      | cons byte key =>
        split at done
        · cases done
          exact .inl rfl
        · obtain ⟨_,_,done⟩ := next_ok done
          split at done
          · cases done
            exact .inl rfl
          · have named : (readCString ((byte :: key) ++ 0 :: rest).tail).1 = key := by
              have solid : ∀ b ∈ key, decide (b ≠ 0) = true := by
                intro b member
                exact decide_eq_true fun zero => plain (zero ▸ List.mem_cons_of_mem _ member)
              change List.takeWhile _ (key ++ 0 :: rest) = key
              rw [List.takeWhile_append_of_pos solid]
              exact List.append_nil key
            rw [named] at done
            exact .inr ⟨Nat.lt_succ_self _,List.mem_map.mpr ⟨_,elements_keep done List.mem_cons_self,rfl⟩⟩

-- The order of an iteration is any order, one that starts with a shortest key
-- among them.
theorem round_trip_iff_empty (doc : List (Bytes × Value)) (plain : ∀ entry ∈ doc, 0 ∉ entry.1) :
    (∀ order, order.Perm doc → ∃ read,
      (parseBSONDocument (writeBSONDocument order)).2 = .ok (some (read,(writeBSONDocument order).length)) ∧
        Same (.document order) (.document read)) ↔ doc = [] := by
  constructor
  · intro exact_
    apply Classical.byContradiction
    intro some
    obtain ⟨⟨key,value⟩,shortest⟩ :=
      Option.ne_none_iff_exists'.mp (mt (List.argmin_eq_none (f := fun entry => entry.1.length)).mp some)
    have member := List.argmin_mem shortest
    have least := fun {other} (listed : other ∈ doc) => List.le_of_mem_argmin listed shortest
    obtain ⟨before,after,rfl⟩ := List.append_of_mem member
    obtain ⟨read,parsed,⟨found,_⟩,keys⟩ := exact_ _ List.perm_middle.symm
    rw [parseBSONDocument,parseBSONDocumentWith] at parsed
    split at parsed
    · cases parsed
    · dsimp only at parsed
      split at parsed
      · cases parsed
      · obtain ⟨last,done,same⟩ := next_ok parsed
        obtain rfl : last = read := congrArg Prod.fst (Option.some.inj (Except.ok.inj same))
        have body : (writeBSONDocument ((key,value) :: (before ++ after))).drop 4 =
            key ++ 0 :: (writeBSONValue value ++ writeElements (before ++ after) ++ [0]) := by
          simp [writeBSONDocument,framed,writeElements,List.drop_left' (putLE_length 4 _)]
        rw [body] at done
        rcases first_key (plain _ member) done with empty | ⟨shorter,named⟩
        · simp [empty] at found
        · obtain ⟨entry,inside,same⟩ := List.mem_map.mp (keys _ named)
          have longer := least (List.perm_middle.symm.mem_iff.mp inside)
          rw [same] at longer
          exact Nat.not_lt.mpr longer shorter
  · rintro rfl _ same
    rw [List.perm_nil.mp same]
    exact ⟨[],rfl,by simp [Same,SameEntries]⟩

theorem empty_document_exact : ∃ read,
    (parseBSONDocument (writeBSONDocument [])).2 = .ok (some (read,(writeBSONDocument []).length)) ∧
      Same (.document []) (.document read) :=
  (round_trip_iff_empty [] (by simp)).mpr rfl [] (.refl [])

theorem number_entry_lost : (parseBSONDocument (writeBSONDocument [([97],.int32 1)])).2 = .ok (some ([],12)) := by
  rfl

end Kronos.Bson
