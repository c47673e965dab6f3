import Kronos.Accounts

namespace Kronos.TokenScopes
open ByteRange Utf8 Strings RecordTable Accounts

-- Letters that no trimming takes away.
def Plain (text : Bytes) : Prop := ∀ b ∈ text, 0x20 < b ∧ b < 0x7F

instance (text : Bytes) : Decidable (Plain text) := inferInstanceAs (Decidable (∀ b ∈ text, 0x20 < b ∧ b < 0x7F))

theorem plain_piece (plain : 0x20 < b ∧ b < 0x7F) : spacePiece (.rune [b]) = false := by
  have above : 32 < b.toNat := UInt8.lt_iff_toNat_lt.mp plain.1
  change (decide (b = 0x20) || (decide (0x09 ≤ b) && decide (b ≤ 0x0D))) = false
  rw [Bool.or_eq_false_iff,Bool.and_eq_false_iff,decide_eq_false_iff_not,decide_eq_false_iff_not,decide_eq_false_iff_not]
  refine ⟨fun same => ?_,Or.inr (fun low => ?_)⟩
  · rw [same] at above
    exact Nat.lt_irrefl 32 above
  · have below : b.toNat ≤ 13 := UInt8.le_iff_toNat_le.mp low
    omega

theorem pieces_plain (plain : Plain head) (rest : Bytes) :
    pieces (head ++ rest) = head.map (fun b => .rune [b]) ++ pieces rest := by
  induction head with
  | nil => rfl
  | cons b later ih =>
    obtain ⟨first,plain⟩ := List.forall_mem_cons.mp plain
    have small : b < 0x80 := lt_trans first.2 (by decide)
    rw [List.map_cons,List.cons_append,List.cons_append,← ih plain]
    exact pieces_rune (decodeRune_rune (.one small) (later ++ rest))

section
variable {α : Type} {p : α → Bool}

theorem dropWhile_kept (kept : ∀ x ∈ xs, p x = false) (some_first : xs ≠ []) (ys : List α) :
    (xs ++ ys).dropWhile p = xs ++ ys := by
  cases xs with
  | nil => exact absurd rfl some_first
  | cons x =>
    rw [List.cons_append,List.dropWhile_cons_of_neg]
    rw [kept x List.mem_cons_self]
    exact Bool.false_ne_true

theorem dropWhile_before (kept : ∀ x ∈ xs, p x = false) (some_first : xs ≠ []) (ys : List α) :
    (ys ++ xs).dropWhile p = ys.dropWhile p ++ xs := by
  rw [List.dropWhile_append]
  by_cases all : (ys.dropWhile p).isEmpty = true
  · have whole := dropWhile_kept kept some_first []
    rw [List.append_nil] at whole
    rw [if_pos all,List.isEmpty_iff.mp all,whole]
    rfl
  · rw [if_neg all]

end

def trimEnd (text : Bytes) : Bytes := (((pieces text).reverse.dropWhile spacePiece).reverse).flatMap Piece.bytes

theorem trimSpace_plain (plain : Plain head) (named : head ≠ []) (rest : Bytes) :
    trimSpace (head ++ rest) = head ++ trimEnd rest := by
  have kept : ∀ piece ∈ head.map (fun b => Piece.rune [b]), spacePiece piece = false := by
    intro piece member
    obtain ⟨b,inHead,rfl⟩ := List.mem_map.mp member
    exact plain_piece (plain b inHead)
  have some_piece : head.map (fun b => Piece.rune [b]) ≠ [] := fun empty => named (List.map_eq_nil_iff.mp empty)
  have written : (head.map (fun b => Piece.rune [b])).flatMap Piece.bytes = head := by
    rw [List.flatMap_map]
    exact List.flatMap_singleton' head
  unfold trimSpace trimEnd
  rw [pieces_plain plain,dropWhile_kept kept some_piece,List.reverse_append,dropWhile_before _ _,
    List.reverse_append,List.reverse_reverse,List.flatMap_append,written]
  · intro piece member
    exact kept piece (List.mem_reverse.mp member)
  · intro empty
    exact some_piece (List.reverse_eq_nil_iff.mp empty)

-- What a text may become under trimming, any number of times.
def Trims (text left : Bytes) : Prop :=
  ∀ head rest, Plain head → head ≠ [] → text = head ++ rest → ∃ tail, left = head ++ tail ∧ (rest = [] → tail = [])

theorem trims_trimSpace (text : Bytes) : Trims text (trimSpace text) := by
  intro head rest plain named split
  refine ⟨trimEnd rest,?_,?_⟩
  · rw [split,trimSpace_plain plain named]
  · intro empty
    subst empty
    rfl

theorem Trims.trans (first : Trims text middle) (second : Trims middle left) : Trims text left := by
  intro head rest plain named split
  obtain ⟨tail,between,ends⟩ := first head rest plain named split
  obtain ⟨last,final,closes⟩ := second head tail plain named between
  exact ⟨last,final,fun empty => closes (ends empty)⟩

theorem Trims.whole {text left : Bytes} (trims : Trims text left) (plain : Plain text) (named : text ≠ []) :
    left = text := by
  obtain ⟨_,same,ends⟩ := trims text [] plain named (List.append_nil text).symm
  rw [same,ends rfl,List.append_nil]

def colon : Bytes := [58]

inductive Gives : Bytes → Bytes → Prop
  | every (required : Bytes) : Gives everyScope required | admin (required : Bytes) : Gives adminScope required
  | same {scope : Bytes} (named : scope ≠ []) : Gives scope scope
  | under {stem required : Bytes} (inside : stem ++ colon <+: required) : Gives (stem ++ colon ++ everyScope) required

theorem everyScope_bytes : everyScope = [42] := rfl

theorem grants_exact : grants scope required = true ↔ Gives scope required := by
  unfold grants
  constructor
  · intro granted
    split at granted
    · cases granted
    · rename_i named
      split at granted
      · rename_i whole
        rcases whole with rfl | rfl | rfl
        · exact .every required
        · exact .admin required
        · exact .same named
      · split at granted
        · rename_i ends
          obtain ⟨stem,rfl⟩ := List.isSuffixOf_iff_suffix.mp ends
          have shape : stem ++ ascii ":*" = stem ++ colon ++ everyScope := (List.append_assoc stem colon everyScope).symm
          rw [shape] at granted ⊢
          rw [everyScope_bytes,List.dropLast_concat] at granted
          exact .under (List.isPrefixOf_iff_prefix.mp granted)
        · cases granted
  · intro gives
    cases gives with
    | every =>
      rw [if_neg (by decide),if_pos (Or.inl rfl)]
    | admin =>
      rw [if_neg (by decide),if_pos (Or.inr (Or.inl rfl))]
    | same named =>
      rw [if_neg named,if_pos (Or.inr (Or.inr rfl))]
    | @under stem _ inside =>
      have named : stem ++ colon ++ everyScope ≠ [] := by simp [everyScope_bytes]
      have ends : (ascii ":*").isSuffixOf (stem ++ colon ++ everyScope) = true :=
        List.isSuffixOf_iff_suffix.mpr ⟨stem,(List.append_assoc stem colon everyScope).symm⟩
      rw [if_neg named,if_pos ends,everyScope_bytes,List.dropLast_concat]
      split
      · rfl
      · exact List.isPrefixOf_iff_prefix.mpr inside

-- The only colon of the administrator's scope.
theorem admin_stem (split : adminScope = stem ++ colon ++ tail) : stem = ascii "admin" := by
  have only : ∀ k < 7, adminScope[k]? = some 58 → k = 5 := by decide
  have size : stem.length < 7 := by
    have lengths := congrArg List.length split
    simp only [List.length_append,colon,List.length_singleton] at lengths
    have seven : adminScope.length = 7 := rfl
    omega
  have place : adminScope[stem.length]? = some 58 := by
    rw [split,List.append_assoc,List.getElem?_append_right (Nat.le_refl _),Nat.sub_self]
    rfl
  have five := only _ size place
  have front : stem = adminScope.take stem.length := by
    rw [split,List.append_assoc,List.take_left]
  rw [front,five]
  rfl

theorem gives_trans (plain : Plain outer) (covers : Gives outer scope) (trims : Trims scope left)
    (gives : Gives left required) : Gives outer required := by
  cases covers with
  | every => exact .every required
  | admin => exact .admin required
  | same named =>
    rw [trims.whole plain named] at gives
    exact gives
  | @under stem _ inside =>
    obtain ⟨rest,split⟩ := inside
    have stem_plain : Plain (stem ++ colon) := fun b member => plain b (List.mem_append_left _ member)
    have stem_named : stem ++ colon ≠ [] := by simp [colon]
    obtain ⟨tail,kept,_⟩ := trims _ rest stem_plain stem_named split.symm
    generalize read : left = trimmed at gives
    rw [kept] at read
    cases gives with
    | every =>
      have first := congrArg List.length read
      have empty : stem = [] := by
        apply List.eq_nil_of_length_eq_zero
        simp only [List.length_append,colon,everyScope_bytes,List.length_singleton] at first
        omega
      subst empty
      cases read
    | admin =>
      rw [admin_stem read.symm]
      exact .admin required
    | same =>
      rw [← read]
      exact .under ⟨tail,rfl⟩
    | @under inner _ within =>
      apply Gives.under
      have before : stem ++ colon <+: inner ++ colon ++ [42] := ⟨tail,read⟩
      rcases List.prefix_concat_iff.mp before with whole | shorter
      · have last := congrArg List.getLast? whole
        rw [colon,List.getLast?_concat,List.getLast?_concat] at last
        cases last
      · exact shorter.trans within

theorem scopeSetAllows_exact {scopes : List Bytes} {required : Bytes} (named : required ≠ []) :
    scopeSetAllows scopes required = true ↔ ∃ scope ∈ scopes, Gives (trimSpace scope) required := by
  simp only [scopeSetAllows,if_neg named,List.any_eq_true,grants_exact]

theorem operator_plain : ∀ scope ∈ operatorScopes, Plain scope ∧ scope ≠ [] := by decide +kernel

theorem viewer_plain : ∀ scope ∈ viewerScopes, Plain scope ∧ scope ≠ [] := by decide +kernel

theorem roleScopes_plain (role : Bytes) : ∀ scope ∈ roleScopes role, Plain scope ∧ scope ≠ [] := by
  unfold roleScopes
  split
  · decide +kernel
  · split
    · exact operator_plain
    · split
      · exact viewer_plain
      · exact fun _ member => absurd member List.not_mem_nil

theorem roleAllowsScope_exact {role required : Bytes} (named : required ≠ []) :
    roleAllowsScope role required = true ↔ ∃ scope ∈ roleScopes role, Gives scope required := by
  have same : ∀ scope ∈ roleScopes role, trimSpace scope = scope := by
    intro scope member
    obtain ⟨plain,some_letter⟩ := roleScopes_plain role scope member
    exact (trims_trimSpace scope).whole plain some_letter
  unfold roleAllowsScope
  split
  · rw [scopeSetAllows_exact named]
    constructor
    · rintro ⟨scope,member,gives⟩
      rw [same scope member] at gives
      exact ⟨scope,member,gives⟩
    · rintro ⟨scope,member,gives⟩
      rw [← same scope member] at gives
      exact ⟨scope,member,gives⟩
  · rename_i unknown
    have none_given : roleScopes role = [] := by
      simp only [not_or] at unknown
      simp only [roleScopes,if_neg unknown.1,if_neg unknown.2.1,if_neg unknown.2.2]
    rw [none_given]
    constructor
    · intro allowed
      cases allowed
    · rintro ⟨_,member,_⟩
      cases member

theorem role_covers {role scope left required : Bytes} (accepted : roleAllowsScope role scope = true)
    (asked : scope ≠ []) (trims : Trims scope left) (named : required ≠ []) (gives : Gives left required) :
    roleAllowsScope role required = true := by
  obtain ⟨outer,member,covers⟩ := (roleAllowsScope_exact asked).mp accepted
  exact (roleAllowsScope_exact named).mpr
    ⟨outer,member,gives_trans (roleScopes_plain role outer member).1 covers trims gives⟩

def Asked (scopes : List Bytes) (kept : Bytes) : Prop := kept ≠ [] ∧ ∃ scope ∈ scopes, kept = trimSpace scope

theorem addScope_asked (asked : scope ∈ scopes) (known : ∀ kept ∈ out, Asked scopes kept)
    (member : kept ∈ addScope out scope) : Asked scopes kept := by
  unfold addScope at member
  split at member
  · exact known kept member
  · rename_i fresh
    rcases List.mem_append.mp member with old | new
    · exact known kept old
    · obtain rfl := List.mem_singleton.mp new
      exact ⟨fun empty => fresh (Or.inl empty),scope,asked,rfl⟩

theorem fold_asked {rest : List Bytes} (inside : ∀ scope ∈ rest, scope ∈ scopes)
    (known : ∀ kept ∈ out, Asked scopes kept) : ∀ kept ∈ rest.foldl addScope out, Asked scopes kept := by
  induction rest generalizing out with
  | nil => exact known
  | cons _ _ ih =>
    obtain ⟨here,later⟩ := List.forall_mem_cons.mp inside
    exact ih later (fun _ member => addScope_asked here known member)

theorem mem_normalizeScopes (member : kept ∈ normalizeScopes scopes) : Asked scopes kept :=
  fold_asked (fun _ member => member) (fun _ member => absurd member List.not_mem_nil) kept
    (List.mem_mergeSort.mp member)

theorem validate_accepts (accepted : validateTokenUserScopes (some users) userID scopes = .ok ()) :
    ∃ user, users.get userID = some user ∧ ∀ scope ∈ scopes, roleAllowsScope user.role scope = true := by
  simp only [validateTokenUserScopes] at accepted
  split at accepted
  · cases accepted
  · split at accepted
    · cases accepted
    · rename_i user found
      split at accepted
      · cases accepted
      · rename_i none_exceeds
        refine ⟨user,found,?_⟩
        intro scope member
        have within := List.find?_eq_none.mp none_exceeds scope member
        simpa using within

theorem token_within_role {users : UserTable} {userID : Bytes} {scopes : List Bytes} {token : Token}
    (accepted : validateTokenUserScopes (some users) userID scopes = .ok ())
    (made : token.scopes = normalizeScopes scopes) : ∃ user, users.get userID = some user ∧ ∀ required, required ≠ [] →
      tokenAllowsScope token required = true → roleAllowsScope user.role required = true := by
  obtain ⟨user,found,within⟩ := validate_accepts accepted
  refine ⟨user,found,?_⟩
  intro required named allowed
  rw [tokenAllowsScope,scopeSetAllows_exact named,made] at allowed
  obtain ⟨_,member,gives⟩ := allowed
  obtain ⟨some_letter,scope,asked,rfl⟩ := mem_normalizeScopes member
  have raw : scope ≠ [] := by
    intro empty
    subst empty
    exact some_letter rfl
  exact role_covers (within scope asked) raw ((trims_trimSpace scope).trans (trims_trimSpace _)) named gives

def nightOperator : User :=
  ⟨ascii "u1",ascii "op@example.com",ascii "Operator",roleOperator,false,⟨1,0⟩,⟨1,0⟩⟩

def jobToken : Token where
  id := ascii "t1"
  userID := ascii "u1"
  name := ascii "night"
  scopes := normalizeScopes [ascii "job:* ",ascii "",ascii "agent:read"]
  expiresAt := Rfc3339.Time.zero
  createdAt := ⟨1,0⟩
  revokedAt := Rfc3339.Time.zero

theorem operator_token_within :
    ∃ user, (Table.single nightOperator : UserTable).get (ascii "u1") = some user ∧ ∀ required, required ≠ [] →
      tokenAllowsScope jobToken required = true → roleAllowsScope user.role required = true :=
  @token_within_role (Table.single nightOperator) (ascii "u1") [ascii "job:* ",ascii "",ascii "agent:read"] jobToken
    (by decide +kernel) rfl

end Kronos.TokenScopes
