import Kronos.Utf8
import Kronos.Delimited
import Mathlib.Data.List.Sort
import Mathlib.Data.Prod.Lex

namespace Kronos.SigV4
open ByteRange Utf8 Delimited

def isUnreserved (c : UInt8) : Bool :=
  (0x41 ≤ c && c ≤ 0x5A) || (0x61 ≤ c && c ≤ 0x7A) || (0x30 ≤ c && c ≤ 0x39) ||
    c = 0x2D || c = 0x2E || c = 0x5F || c = 0x7E

def hexDigit (n : Nat) : UInt8 := (ascii "0123456789ABCDEF").getD n 0

def encodeByte (encodeSlash : Bool) (c : UInt8) : Bytes :=
  if isUnreserved c || (c = 0x2F && !encodeSlash) then [c]
  else [0x25,hexDigit (c.toNat / 16),hexDigit (c.toNat % 16)]

def uriEncode (value : Bytes) (encodeSlash : Bool) : Bytes := value.flatMap (encodeByte encodeSlash)

theorem hexDigit_injective (low : m < 16) (high : n < 16) (same : hexDigit m = hexDigit n) : m = n := by
  have all : ∀ m n : Fin 16, hexDigit m.val = hexDigit n.val → m = n := by decide
  exact congrArg Fin.val (all ⟨m,low⟩ ⟨n,high⟩ same)

theorem hexDigit_unreserved (small : n < 16) : isUnreserved (hexDigit n) = true := by
  have all : ∀ n : Fin 16, isUnreserved (hexDigit n.val) = true := by decide
  exact all ⟨n,small⟩

theorem encodeByte_separated (encodeSlash : Bool) : Separated (encodeByte encodeSlash) := by
  constructor
  · intro a
    unfold encodeByte
    split
    · exact List.cons_ne_nil _ _
    · exact List.cons_ne_nil _ _
  · intro a b x y same
    unfold encodeByte at same
    split at same
    · rename_i plain
      split at same
      · cases same
        rfl
      · cases same
        cases plain
    · split at same
      · rename_i plain
        cases same
        cases plain
      · simp only [List.cons_append,List.cons.injEq,true_and] at same
        have small := a.toNat_lt
        have short := b.toNat_lt
        have high := hexDigit_injective (by omega) (by omega) same.1
        have low := hexDigit_injective (by omega) (by omega) same.2.1
        apply UInt8.toNat_inj.mp
        omega

theorem uriEncode_bytes (member : b ∈ uriEncode value true) : isUnreserved b = true ∨ b = 0x25 := by
  obtain ⟨c,_,shown⟩ := List.mem_flatMap.mp member
  have small := c.toNat_lt
  simp only [encodeByte,Bool.not_true,Bool.and_false,Bool.or_false] at shown
  split at shown
  · rename_i plain
    rw [List.mem_singleton.mp shown]
    exact .inl plain
  · simp only [List.mem_cons,List.not_mem_nil,or_false] at shown
    rcases shown with rfl | rfl | rfl
    · exact .inr rfl
    · exact .inl (hexDigit_unreserved (by omega))
    · exact .inl (hexDigit_unreserved (by omega))

-- url.Values in the order in which one range over the map meets the keys.
structure Values where
  entries : List (Bytes × List Bytes)
  distinct : (entries.map Prod.fst).Nodup

abbrev Pair := Bytes × Bytes

def encodedPairs (values : Values) : List Pair :=
  values.entries.flatMap fun entry =>
    if entry.2 = [] then [(uriEncode entry.1 true,[])]
    else entry.2.map fun value => (uriEncode entry.1 true,uriEncode value true)

def less (a b : Pair) : Bool := if a.1 = b.1 then a.2 < b.2 else a.1 < b.1

def part (pair : Pair) : Bytes := pair.1 ++ ascii "=" ++ pair.2

-- Pairs that neither is less than the other are the same, so every sort gives this list.
def canonicalQuery (values : Values) : Bytes :=
  (ascii "&").intercalate (((encodedPairs values).mergeSort (fun a b => !less b a)).map part)

theorem less_iff : less a b = true ↔ toLex a < toLex b := by
  rw [Prod.Lex.toLex_lt_toLex,less]
  by_cases same : a.1 = b.1
  · simp [same]
  · simp [same]

theorem sorts_by : (!less b a) = true ↔ toLex a ≤ toLex b := by
  rw [← not_lt,← less_iff,Bool.not_eq_true,Bool.not_eq_true']

theorem sorted_unique {left : List Pair} (same : left.Perm right) :
    left.mergeSort (fun a b => !less b a) = right.mergeSort (fun a b => !less b a) := by
  have sorted : ∀ pairs : List Pair, (pairs.mergeSort (fun a b => !less b a)).Pairwise (fun a b => (!less b a) = true) := by
    intro pairs
    apply List.pairwise_mergeSort
    · intro a b c first second
      exact sorts_by.mpr (le_trans (sorts_by.mp first) (sorts_by.mp second))
    · intro a b
      rw [Bool.or_eq_true,sorts_by,sorts_by]
      exact le_total _ _
  refine List.Perm.eq_of_pairwise ?_ (sorted left) (sorted right)
    ((List.mergeSort_perm left _).trans (same.trans (List.mergeSort_perm right _).symm))
  intro a b _ _ first second
  exact toLex.injective (le_antisymm (sorts_by.mp first) (sorts_by.mp second))

-- The parameters themselves.
def pairs (values : Values) : List Pair := values.entries.flatMap fun entry => entry.2.map fun value => (entry.1,value)

def Given (values : Values) : Prop := ∀ entry ∈ values.entries, entry.2 ≠ []

def encodePair (pair : Pair) : Pair := (uriEncode pair.1 true,uriEncode pair.2 true)

theorem uriEncode_injective (encodeSlash : Bool) : Function.Injective (uriEncode · encodeSlash) :=
  (encodeByte_separated encodeSlash).injective

theorem encodePair_injective : Function.Injective encodePair := by
  intro a b same
  obtain ⟨key,value⟩ := Prod.mk.injEq .. ▸ same
  exact Prod.ext (uriEncode_injective true key) (uriEncode_injective true value)

theorem encodedPairs_given (given : Given values) : encodedPairs values = (pairs values).map encodePair := by
  unfold encodedPairs pairs
  rw [List.map_flatMap]
  apply List.flatMap_congr
  intro entry member
  rw [if_neg (given entry member),List.map_map]
  rfl

def Clean (text : Bytes) : Prop := ∀ b ∈ text, isUnreserved b = true ∨ b = 0x25

theorem Clean.unmarked (clean : Clean text) (reserved : isUnreserved mark = false) (other : mark ≠ 0x25) :
    mark ∉ text := by
  intro member
  rcases clean mark member with plain | percent
  · rw [reserved] at plain
    cases plain
  · exact other percent

theorem uriEncode_clean (value : Bytes) : Clean (uriEncode value true) := fun _ member => uriEncode_bytes member

theorem part_encoded (same : part (encodePair a) = part (encodePair b)) : a = b := by
  have equals : isUnreserved 0x3D = false := by decide
  have key := (uriEncode_clean a.1).unmarked equals (by decide)
  have value := (uriEncode_clean a.2).unmarked equals (by decide)
  have told : (encodePair a).1 ++ 0x3D :: (encodePair a).2 = (encodePair b).1 ++ 0x3D :: (encodePair b).2 := by
    simp only [part,List.append_assoc] at same
    exact same
  obtain ⟨first,_,second⟩ := (List.append_cons_inj_of_notMem key value).mp told
  exact encodePair_injective (Prod.ext first second)

theorem part_plain (pair : Pair) : part (encodePair pair) ≠ [] ∧ 0x26 ∉ part (encodePair pair) := by
  have reserved : isUnreserved 0x26 = false := by decide
  constructor
  · simp [part,ascii]
  · have key := (uriEncode_clean pair.1).unmarked reserved (by decide)
    have value := (uriEncode_clean pair.2).unmarked reserved (by decide)
    intro member
    rcases List.mem_append.mp member with front | back
    · rcases List.mem_append.mp front with inside | mark
      · exact key inside
      · revert mark
        decide
    · exact value back

-- The parts of a query, as the pairs they were written from.
theorem written (given : Given values) : ∃ order : List Pair, order.Perm (pairs values) ∧
      canonicalQuery values = (ascii "&").intercalate (order.map fun pair => part (encodePair pair)) := by
  refine ⟨(pairs values).mergeSort (fun a b => !less (encodePair b) (encodePair a)),List.mergeSort_perm _ _,?_⟩
  have moved := List.map_mergeSort (r := fun a b => !less (encodePair b) (encodePair a)) (s := fun a b => !less b a)
    (f := encodePair) (l := pairs values) (fun _ _ _ _ => rfl)
  rw [canonicalQuery,encodedPairs_given given,← moved,List.map_map]
  rfl

theorem canonical_query_identifies {left right : Values} (given : Given left) (filled : Given right) :
    (canonicalQuery left = canonicalQuery right ↔ (pairs left).Perm (pairs right)) ∧
    ∀ encodeSlash, Function.Injective (uriEncode · encodeSlash) := by
  refine ⟨⟨?_,?_⟩,uriEncode_injective⟩
  · intro same
    obtain ⟨first,ofLeft,leftText⟩ := written given
    obtain ⟨second,ofRight,rightText⟩ := written filled
    rw [leftText,rightText] at same
    have parts : first.map (fun pair => part (encodePair pair)) = second.map (fun pair => part (encodePair pair)) := by
      apply intercalate_unique ?_ same
      intro text member
      rw [← List.map_append] at member
      obtain ⟨pair,_,rfl⟩ := List.mem_map.mp member
      exact part_plain pair
    have equal := List.map_injective_iff.mpr (fun _ _ => part_encoded) parts
    rw [equal] at ofLeft
    exact ofLeft.symm.trans ofRight
  · intro same
    unfold canonicalQuery
    rw [encodedPairs_given given,encodedPairs_given filled,sorted_unique (same.map encodePair)]

def uploads : Values := ⟨[(ascii "uploadId",[ascii "x&y"]),(ascii "tag",[ascii "b",ascii "a"])],by decide⟩

def uploadsReordered : Values := ⟨[(ascii "tag",[ascii "a",ascii "b"]),(ascii "uploadId",[ascii "x&y"])],by decide⟩

theorem reordered_uploads_same_query : canonicalQuery uploads = canonicalQuery uploadsReordered :=
  (canonical_query_identifies (by unfold Given; decide) (by unfold Given; decide)).1.mpr (by decide)

end Kronos.SigV4
