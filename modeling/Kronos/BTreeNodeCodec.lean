import Kronos.BTreeNode
import Mathlib.Tactic.Linarith

namespace Kronos.BTreeNode
open ByteRange SortedRun

-- What the directory slot and the payload area hold for one written entry.
structure Stored (page : Page) (index keyOff valueOff : Nat) (entry : Entry) : Prop where
  keyAt : page.slice (entryBase index) 2 = putLE 2 keyOff
  keySize : page.slice (entryBase index + 2) 2 = putLE 2 entry.key.length
  valueAt : page.slice (entryBase index + 4) 2 = putLE 2 valueOff
  valueSize : page.slice (entryBase index + 6) 2 = putLE 2 entry.value.length
  child : page.slice (entryBase index + 8) 8 = putLE 8 entry.child
  key : page.slice keyOff entry.key.length = entry.key
  value : page.slice valueOff entry.value.length = entry.value

theorem stored_decodes (stored : Stored page index keyOff valueOff entry)
    (nonempty : entry.key ≠ []) (keyEnd : keyOff + entry.key.length ≤ pageSize)
    (valueEnd : valueOff + entry.value.length ≤ pageSize) (childFits : entry.child < 2 ^ 64) :
    decodeEntry pid page index = .ok entry := by
  have positive : 0 < entry.key.length := List.length_pos_iff.mpr nonempty
  simp only [pageSize] at keyEnd valueEnd
  have a : uint16At page (entryBase index) = keyOff := by
    rw [uint16At,stored.keyAt]; exact getLE_putLE_small 2 _ (by omega)
  have b : uint16At page (entryBase index + 2) = entry.key.length := by
    rw [uint16At,stored.keySize]; exact getLE_putLE_small 2 _ (by omega)
  have c : uint16At page (entryBase index + 4) = valueOff := by
    rw [uint16At,stored.valueAt]; exact getLE_putLE_small 2 _ (by omega)
  have d : uint16At page (entryBase index + 6) = entry.value.length := by
    rw [uint16At,stored.valueSize]; exact getLE_putLE_small 2 _ (by omega)
  have e : uint64At page (entryBase index + 8) = entry.child := by
    rw [uint64At,stored.child]; exact getLE_putLE_small 8 _ (by omega)
  simp only [decodeEntry,a,b,c,d,e,stored.key,stored.value,pageSize]
  rw [if_neg (by omega),if_neg (by omega),if_neg (by omega)]

-- Room for the entry: its directory slot ends before its payload starts.
def Room (cursor index : Nat) (entry : Entry) : Prop :=
  entryBase index + nodeEntrySize + entrySize entry ≤ cursor ∧ cursor ≤ pageSize

theorem writeEntry_frame (page : Page) (entry : Entry) (room : Room cursor index entry)
    (apart : from_ + size ≤ entryBase index ∨
      (entryBase index + nodeEntrySize ≤ from_ ∧ from_ + size ≤ cursor - entrySize entry) ∨ cursor ≤ from_) :
    (writeEntry page cursor index entry).slice from_ size = page.slice from_ size := by
  simp only [Room,entrySize,nodeEntrySize] at room apart
  simp only [writeEntry]
  repeat rw [Page.slice_apart _ (putLE_length _ _) (by omega)]
  rw [Page.slice_apart _ rfl (by omega),Page.slice_apart _ rfl (by omega)]

theorem writeEntry_stored (page : Page) (entry : Entry) (room : Room cursor index entry) :
    Stored (writeEntry page cursor index entry) index
      (cursor - entry.value.length - entry.key.length) (cursor - entry.value.length) entry := by
  have inside : cursor ≤ pageSize := room.2
  have below : entryBase index + 16 + (entry.key.length + entry.value.length) ≤ cursor := room.1
  constructor
  all_goals simp only [writeEntry]
  case child => exact Page.slice_same _ (putLE_length _ _) (by omega)
  case key =>
    repeat rw [Page.slice_apart _ (putLE_length _ _) (by omega)]
    exact Page.slice_same _ rfl (by omega)
  case value =>
    repeat rw [Page.slice_apart _ (putLE_length _ _) (by omega)]
    rw [Page.slice_apart _ rfl (by omega)]
    exact Page.slice_same _ rfl (by omega)
  all_goals
    repeat rw [Page.slice_apart _ (putLE_length _ _) (by omega)]
    exact Page.slice_same _ (putLE_length _ _) (by omega)

theorem Stored.frame (stored : Stored page index keyOff valueOff entry)
    (slot : ∀ from_ size, entryBase index ≤ from_ → from_ + size ≤ entryBase index + nodeEntrySize →
      after.slice from_ size = page.slice from_ size)
    (payload : ∀ from_ size, keyOff ≤ from_ → after.slice from_ size = page.slice from_ size)
    (order : keyOff ≤ valueOff) : Stored after index keyOff valueOff entry where
  keyAt := by rw [slot _ _ (by omega) (by simp only [nodeEntrySize]; omega)]; exact stored.keyAt
  keySize := by rw [slot _ _ (by omega) (by simp only [nodeEntrySize]; omega)]; exact stored.keySize
  valueAt := by rw [slot _ _ (by omega) (by simp only [nodeEntrySize]; omega)]; exact stored.valueAt
  valueSize := by rw [slot _ _ (by omega) (by simp only [nodeEntrySize]; omega)]; exact stored.valueSize
  child := by rw [slot _ _ (by omega) (by simp only [nodeEntrySize]; omega)]; exact stored.child
  key := by rw [payload _ _ (Nat.le_refl _)]; exact stored.key
  value := by rw [payload _ _ order]; exact stored.value

def Space (cursor index : Nat) (entries : List Entry) : Prop :=
  entryBase (index + entries.length) + (entries.map entrySize).sum ≤ cursor ∧ cursor ≤ pageSize

theorem space_first (space : Space cursor index (entry :: rest)) : Room cursor index entry := by
  simp only [Space,Room,entryBase,nodeHeaderSize,nodeEntrySize,List.length_cons,List.map_cons,
    List.sum_cons] at space ⊢
  omega

theorem space_rest (space : Space cursor index (entry :: rest)) : Space (cursor - entrySize entry) (index+1) rest := by
  simp only [Space,entryBase,nodeHeaderSize,nodeEntrySize,List.length_cons,List.map_cons,
    List.sum_cons] at space ⊢
  omega

theorem writeEntries_frame (written : writeEntries pid page cursor index entries = (final,none))
    (space : Space cursor index entries) (apart : from_ + size ≤ entryBase index ∨ cursor ≤ from_) :
    final.slice from_ size = page.slice from_ size := by
  induction entries generalizing page cursor index with
  | nil =>
    simp only [writeEntries,Prod.mk.injEq,and_true] at written
    rw [written]
  | cons entry _ ih =>
    simp only [writeEntries] at written
    split at written
    · simp at written
    · have room := space_first space
      have later := ih written (space_rest space) (by
        simp only [entryBase,nodeHeaderSize,nodeEntrySize] at apart ⊢
        omega)
      rw [later]
      exact writeEntry_frame page entry room (by
        rcases apart with before | after
        · exact .inl before
        · exact .inr (.inr after))

theorem decode_written (written : writeEntries pid page cursor index entries = (final,none))
    (space : Space cursor index entries) (sorted : Ascending Entry.key (done ++ entries))
    (keyed : ∀ e ∈ entries, e.key ≠ []) (children : ∀ e ∈ entries, e.child < 2 ^ 64)
    (linked : typ = .branch → ∀ e ∈ entries, e.child ≠ 0) :
    decodeEntries pid typ final entries.length index done = .ok (done ++ entries) := by
  induction entries generalizing page cursor index done with
  | nil => simp [decodeEntries]
  | cons entry rest ih =>
    have room := space_first space
    have inside : cursor ≤ pageSize := room.2
    have below : entryBase index + 16 + (entry.key.length + entry.value.length) ≤ cursor := room.1
    simp only [writeEntries] at written
    split at written
    · simp at written
    · have frame : ∀ from_ size, from_ + size ≤ entryBase (index+1) ∨ cursor - entrySize entry ≤ from_ →
          final.slice from_ size = (writeEntry page cursor index entry).slice from_ size :=
        fun _ _ apart => writeEntries_frame written (space_rest space) apart
      have stored : Stored final index (cursor - entry.value.length - entry.key.length)
          (cursor - entry.value.length) entry := by
        refine (writeEntry_stored page entry room).frame ?_ ?_ (by omega)
        · intro from_ size _ ends
          exact frame from_ size (.inl (by
            simp only [entryBase,nodeHeaderSize,nodeEntrySize] at ends ⊢
            omega))
        · intro from_ size starts
          exact frame from_ size (.inr (by simp only [entrySize]; omega))
      have decoded : decodeEntry pid final index = .ok entry :=
        stored_decodes stored (keyed entry (by simp)) (by omega) (by omega) (children entry (by simp))
      have ordered : done.getLast?.any (fun previous => decide (entry.key ≤ previous.key)) = false := by
        cases last : done.getLast? with
        | none => rfl
        | some previous =>
          have less : previous.key < entry.key :=
            (List.pairwise_append.mp sorted).2.2 previous (List.mem_of_getLast? last) entry (by simp)
          simpa using less
      have tail : decodeEntries pid typ final rest.length (index+1) (done ++ [entry]) =
          .ok (done ++ [entry] ++ rest) := ih written (space_rest space)
        (by simpa [List.append_assoc] using sorted)
        (fun e member => keyed e (List.mem_cons_of_mem _ member))
        (fun e member => children e (List.mem_cons_of_mem _ member))
        (fun branch e member => linked branch e (List.mem_cons_of_mem _ member))
      simp only [List.length_cons,decodeEntries,decoded,ordered]
      rw [if_neg (by simp),if_neg (by
        rintro ⟨branch,zero⟩
        exact linked branch entry (by simp) zero),tail]
      simp

structure WellFormed (node : Node) : Prop where
  typed : node.typ ≠ .unset
  next : node.next < 2 ^ 64
  sorted : Ascending Entry.key node.entries
  keyed : ∀ e ∈ node.entries, e.key ≠ []
  children : ∀ e ∈ node.entries, e.child < 2 ^ 64
  linked : node.typ = .branch → ∀ e ∈ node.entries, e.child ≠ 0

theorem fits_space (fits : nodeFits node = true) : Space pageSize 0 node.entries := by
  have used : nodeUsed node.entries ≤ pageSize := by simpa [nodeFits] using fits
  refine ⟨?_,Nat.le_refl _⟩
  simpa [entryBase,nodeUsed] using used

theorem fits_count (fits : nodeFits node = true) : node.entries.length * 16 + 16 ≤ pageSize := by
  have used : nodeUsed node.entries ≤ pageSize := by simpa [nodeFits] using fits
  simp only [nodeUsed,nodeHeaderSize,nodeEntrySize] at used
  omega

theorem writeEntries_complete (keyed : ∀ e ∈ entries, e.key ≠ []) :
    ∃ final, writeEntries pid page cursor index entries = (final,none) := by
  induction entries generalizing page cursor index with
  | nil => exact ⟨page,rfl⟩
  | cons entry _ ih =>
    obtain ⟨final,written⟩ := @ih (writeEntry page cursor index entry) (cursor - entrySize entry) (index+1)
      (fun e member => keyed e (List.mem_cons_of_mem _ member))
    have nonempty : entry.key.length ≠ 0 := by
      simpa using keyed entry (by simp)
    exact ⟨final,by simp only [writeEntries]; rw [if_neg nonempty]; exact written⟩

theorem layout_complete (valid : WellFormed node) : ∃ final, layoutNode node = (final,none) :=
  writeEntries_complete valid.keyed

theorem header_frame (written : layoutNode node = (final,none)) (fits : nodeFits node = true)
    (inHeader : from_ + size ≤ nodeHeaderSize) : final.slice from_ size = (writeHeader node).slice from_ size :=
  writeEntries_frame written (fits_space fits) (.inl (by simpa [entryBase] using inHeader))

theorem headD_slice (page : Page) : page.1.headD 0 = (page.slice 0 1).headD 0 := by
  cases shape : page.1 with
  | nil =>
    have sized := page.2
    rw [shape] at sized
    simp [pageSize] at sized
  | cons => simp [Page.slice,slice,shape]

theorem decodeType_byte (typed : typ ≠ .unset) : decodeType pid typ.byte = .ok typ := by
  cases typ with
  | unset => exact absurd rfl typed
  | leaf => rfl
  | branch => rfl

theorem decode_layout (valid : WellFormed node) (fits : nodeFits node = true)
    (written : layoutNode node = (final,none)) : decodeNode node.id final = .ok node := by
  have count := fits_count fits
  simp only [pageSize] at count
  have typeByte : final.1.headD 0 = node.typ.byte := by
    rw [headD_slice,header_frame written fits (by decide),writeHeader]
    rw [Page.slice_apart _ (putLE_length _ _) (by omega),Page.slice_apart _ (putLE_length _ _) (by omega)]
    have first : (Page.zero.splice 0 [node.typ.byte]).slice 0 1 = [node.typ.byte] :=
      Page.slice_same _ rfl (by decide)
    rw [first]
    rfl
  have countAt : uint16At final 2 = node.entries.length := by
    rw [uint16At,header_frame written fits (by decide),writeHeader]
    rw [Page.slice_apart _ (putLE_length _ _) (by omega),Page.slice_same _ (putLE_length _ _) (by decide)]
    exact getLE_putLE_small 2 _ (by omega)
  have nextAt : uint64At final 8 = node.next := by
    rw [uint64At,header_frame written fits (by decide),writeHeader,Page.slice_same _ (putLE_length _ _) (by decide)]
    exact getLE_putLE_small 8 _ valid.next
  have entries : decodeEntries node.id node.typ final node.entries.length 0 [] = .ok node.entries :=
    decode_written written (fits_space fits) valid.sorted valid.keyed valid.children valid.linked
  simp only [decodeNode,final.2,typeByte,decodeType_byte valid.typed,countAt,nextAt,entries,
    nodeHeaderSize,nodeEntrySize,pageSize]
  rw [if_neg (by omega),if_neg (by omega)]

end Kronos.BTreeNode
