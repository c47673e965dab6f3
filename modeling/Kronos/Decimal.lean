import Mathlib.Data.List.TakeWhile
import Kronos.JsonText

namespace Kronos.Decimal
open ByteRange JsonText

def digit (n : Nat) : UInt8 := UInt8.ofNat (48 + n % 10)

def decimalFrom : Nat → Nat → Bytes
  | 0,_ => []
  | fuel+1,n => if n < 10 then [digit n] else decimalFrom fuel (n / 10) ++ [digit n]

def decimal (n : Nat) : Bytes := decimalFrom (n+1) n

def decimalInt (n : Int) : Bytes := if n < 0 then 45 :: decimal n.natAbs else decimal n.natAbs

def value (text : Bytes) : Nat := text.foldl (fun sum b => sum * 10 + (b.toNat - 48)) 0

-- strconv.ParseInt with base 10 and 64 bits.
def parseInt (text : Bytes) : Option Int64 :=
  let negative := decide (text.head? = some 45)
  let digits := if negative ∨ text.head? = some 43 then text.tail else text
  if digits = [] ∨ digits.all digitByte = false then none
  else
    let n : Int := if negative then -(value digits) else value digits
    if -2^63 ≤ n ∧ n < 2^63 then some (Int64.ofInt n) else none

-- A fixed width, the most significant digit first.
def padded : Nat → Nat → Bytes
  | 0,_ => []
  | width+1,n => digit (n / 10^width) :: padded width (n % 10^width)

-- At least a width, zeros between the sign and the digits.
def atLeast (width : Nat) (n : Int) : Bytes :=
  let digits := decimal n.natAbs
  if n < 0 then 45 :: (List.replicate (width - 1 - digits.length) 48 ++ digits)
  else List.replicate (width - digits.length) 48 ++ digits

theorem digit_toNat (n : Nat) : (digit n).toNat = 48 + n % 10 := by
  rw [digit,UInt8.toNat_ofNat']
  omega

theorem digit_digitByte (n : Nat) : digitByte (digit n) = true := by
  simp only [digitByte,UInt8.le_iff_toNat_le,digit_toNat,UInt8.toNat_ofNat,Bool.and_eq_true,
    decide_eq_true_eq]
  omega

theorem value_snoc (text : Bytes) (n : Nat) : value (text ++ [digit n]) = value text * 10 + n % 10 := by
  rw [value,List.foldl_append,List.foldl_cons,List.foldl_nil,digit_toNat,← value]
  omega

theorem decimalFrom_value (fuel n : Nat) (enough : n < fuel) : value (decimalFrom fuel n) = n := by
  induction fuel generalizing n with
  | zero => omega
  | succ _ ih =>
    rw [decimalFrom]
    split
    · rw [← List.nil_append [digit n],value_snoc]
      simp [value]
      omega
    · rw [value_snoc,ih (n / 10) (by omega)]
      omega

theorem value_decimal (n : Nat) : value (decimal n) = n := decimalFrom_value _ n (Nat.lt_succ_self n)

-- The digits of a number; only zero itself starts with a zero.
theorem decimalFrom_digits (fuel n : Nat) (enough : n < fuel) :
    ∃ lead rest, decimalFrom fuel n = lead :: rest ∧ (∀ b ∈ lead :: rest, digitByte b = true) ∧
      (lead = 48 → rest = []) := by
  induction fuel generalizing n with
  | zero => omega
  | succ fuel ih =>
    rw [decimalFrom]
    split
    · exact ⟨digit n,[],rfl,by simp [digit_digitByte],fun _ => rfl⟩
    · obtain ⟨lead,rest,shape,digits,zero⟩ := ih (n / 10) (by omega)
      refine ⟨lead,rest ++ [digit n],by rw [shape]; rfl,?_,?_⟩
      · intro b member
        rw [← List.cons_append] at member
        rcases List.mem_append.mp member with old | new
        · exact digits b old
        · rw [List.mem_singleton.mp new]
          exact digit_digitByte n
      · intro same
        have total := decimalFrom_value fuel (n / 10) (by omega)
        rw [shape,zero same,same] at total
        change 0 = n / 10 at total
        omega

theorem digits_numeral {text : Bytes} (digits : ∀ b ∈ text, digitByte b = true) : ∀ b ∈ text, numeralByte b = true := by
  intro b member
  simp [numeralByte,digits b member]

theorem digits_integer {lead : UInt8} {rest : Bytes} (digits : ∀ b ∈ lead :: rest, digitByte b = true)
    (zero : lead = 48 → rest = []) : integer (lead :: rest) = true := by
  rw [integer]
  split
  · rename_i same
    rw [zero same]
    rfl
  · have gone : rest.dropWhile digitByte = [] :=
      List.dropWhile_eq_nil_iff.mpr (fun b member => digits b (List.mem_cons_of_mem _ member))
    rw [digits lead List.mem_cons_self,gone]
    rfl

theorem decimal_numeral (n : Nat) : Numeral (decimal n) := by
  obtain ⟨lead,_,shape,digits,zero⟩ := decimalFrom_digits (n+1) n (Nat.lt_succ_self n)
  have plain : lead ≠ 45 := by
    intro same
    exact absurd (same ▸ digits lead List.mem_cons_self) (by decide)
  rw [decimal,shape]
  refine ⟨?_,digits_numeral digits⟩
  rw [number,if_neg plain]
  exact digits_integer digits zero

theorem decimalInt_numeral (n : Int) : Numeral (decimalInt n) := by
  rw [decimalInt]
  split
  · obtain ⟨_,_,shape,digits,zero⟩ := decimalFrom_digits (n.natAbs+1) n.natAbs (Nat.lt_succ_self _)
    rw [decimal,shape]
    refine ⟨digits_integer digits zero,?_⟩
    exact List.forall_mem_cons.mpr ⟨by decide,digits_numeral digits⟩
  · exact decimal_numeral n.natAbs

theorem padded_lt (width : Nat) (small : a < 10^width) (bound : b < 10^width) :
    padded width a < padded width b ↔ a < b := by
  induction width generalizing a b with
  | zero => simp only [Nat.pow_zero] at small bound; simp [padded]; omega
  | succ width ih =>
    have positive : 0 < 10^width := Nat.pow_pos (by decide)
    have high : ∀ {n : Nat}, n < 10^(width+1) → n / 10^width < 10 := by
      intro n inside
      exact Nat.div_lt_of_lt_mul (by rwa [Nat.pow_succ] at inside)
    have lead : digit (a / 10^width) < digit (b / 10^width) ↔ a / 10^width < b / 10^width := by
      rw [UInt8.lt_iff_toNat_lt,digit_toNat,digit_toNat,Nat.mod_eq_of_lt (high small),
        Nat.mod_eq_of_lt (high bound)]
      omega
    have same : digit (a / 10^width) = digit (b / 10^width) ↔ a / 10^width = b / 10^width := by
      rw [← UInt8.toNat_inj,digit_toNat,digit_toNat,Nat.mod_eq_of_lt (high small),
        Nat.mod_eq_of_lt (high bound)]
      omega
    rw [padded,padded,List.cons_lt_cons_iff,lead,same,
      ih (Nat.mod_lt a positive) (Nat.mod_lt b positive)]
    have left := Nat.div_add_mod a (10^width)
    have right := Nat.div_add_mod b (10^width)
    constructor
    · rintro (less | ⟨equal,less⟩)
      · exact Nat.lt_of_div_lt_div less
      · rw [← left,← right,equal]
        omega
    · intro less
      rcases Nat.lt_or_eq_of_le (Nat.div_le_div_right (c := 10^width) (Nat.le_of_lt less)) with below | equal
      · exact .inl below
      · refine .inr ⟨equal,?_⟩
        rw [equal] at left
        omega

theorem value_zeros (count : Nat) (text : Bytes) : value (List.replicate count 48 ++ text) = value text := by
  induction count with
  | zero => rfl
  | succ _ ih => exact ih

theorem atLeast_sign (width : Nat) (n : Int) : (atLeast width n).head? = some 45 ↔ n < 0 := by
  obtain ⟨lead,rest,shape,digits,_⟩ := decimalFrom_digits (n.natAbs+1) n.natAbs (Nat.lt_succ_self _)
  have plain : lead ≠ 45 := by
    rintro rfl
    exact absurd (digits 45 List.mem_cons_self) (by decide)
  unfold atLeast
  dsimp only
  split
  · rename_i negative
    exact iff_of_true rfl negative
  · rename_i positive
    refine iff_of_false ?_ positive
    rw [decimal,shape]
    cases width - (lead :: rest).length with
    | zero => simpa using plain
    | succ => simp [List.replicate_succ]

theorem atLeast_inj (width : Nat) : Function.Injective (atLeast width) := by
  intro m n same
  have signs : m < 0 ↔ n < 0 := by rw [← atLeast_sign width,same,atLeast_sign]
  have size : value (decimal m.natAbs) = value (decimal n.natAbs) := by
    unfold atLeast at same
    by_cases negative : m < 0
    · simp only [negative,signs.mp negative,if_true,List.cons.injEq,true_and] at same
      rw [← value_zeros _ (decimal m.natAbs),same,value_zeros]
    · simp only [negative,(signs.not.mp negative),if_false] at same
      rw [← value_zeros _ (decimal m.natAbs),same,value_zeros]
  rw [value_decimal,value_decimal] at size
  omega

end Kronos.Decimal
