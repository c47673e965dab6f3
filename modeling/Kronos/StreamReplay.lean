import Mathlib.Data.Prod.Lex
import Kronos.Decimal
import Kronos.Strings

namespace Kronos.StreamReplay
open ByteRange Utf8 Decimal Strings

-- A key that is not set reads as the empty text.
structure Target where
  connection : Bytes → Bytes
  options : Bytes → Bytes

def firstNonEmpty (values : List Bytes) : Bytes := (values.find? fun value => decide (trimSpace value ≠ [])).getD []

def protocolKeys : List Bytes := [ascii "protocol",ascii "native_protocol",ascii "native"]

def protocol (target : Target) : Bytes :=
  toLower (trimSpace (firstNonEmpty (protocolKeys.map target.connection ++ protocolKeys.map target.options)))

def useNativeProtocol (external : List Bytes) (target : Target) : Bool := !external.contains (protocol target)

def postgresNative : Target → Bool := useNativeProtocol [ascii "pg_dump",ascii "shell",ascii "external"]

def mysqlNative : Target → Bool := useNativeProtocol [ascii "mysqldump",ascii "shell",ascii "external"]

-- A time that is not set is none.
structure StreamRecord where
  position : Bytes
  time : Option Int
  payload : Bytes

-- The records a reader hands out, and the error it then fails with if it does
-- not just end.
structure StreamReader where
  records : List StreamRecord
  failure : Option Bytes

structure ReplayTarget where
  position : Bytes
  time : Option Int

inductive Fault where
  | streamReaderRequired | incrementalUnsupported | read (error : Bytes) | query (error : Bytes)
  deriving DecidableEq, Repr

structure Replay where
  executed : List Bytes
  fault : Option Fault
  deriving DecidableEq, Repr

def late (point : ReplayTarget) (record : StreamRecord) : Bool :=
  match point.time,record.time with
  | some limit,some time => decide (limit < time)
  | _,_ => false

section
variable (server : Bytes → Option Bytes)

-- The loop of both drivers: it ends with the records, where the target point is
-- reached or with the first payload the server refuses.
def replay (reached : StreamRecord → Bool) (failure : Option Bytes) : List StreamRecord → Replay
  | [] => ⟨[],failure.map .read⟩
  | record :: rest =>
    if reached record then ⟨[],none⟩
    else if record.payload = [] then replay reached failure rest
    else match server record.payload with
      | some error => ⟨[record.payload],some (.query error)⟩
      | none => ⟨record.payload :: (replay reached failure rest).executed,(replay reached failure rest).fault⟩

def postgresReached (point : ReplayTarget) (record : StreamRecord) : Bool := late point record ||
  (decide (point.position ≠ []) && decide (record.position ≠ []) && decide (point.position ≤ record.position))

def postgresReplayStream (target : Target) (r : Option StreamReader) (point : ReplayTarget) : Replay :=
  match r with
  | none => ⟨[],some .streamReaderRequired⟩
  | some reader =>
    if postgresNative target = false then ⟨[],some .incrementalUnsupported⟩
    else replay server (postgresReached point) reader.failure reader.records

-- Here a record without a position is compared like any other.
def mysqlReached (point : ReplayTarget) (record : StreamRecord) : Bool :=
  (decide (point.position ≠ []) && decide (point.position ≤ record.position)) || late point record

def mysqlReplayStream (target : Target) (r : Option StreamReader) (point : ReplayTarget) : Replay :=
  if mysqlNative target = false then ⟨[],some .incrementalUnsupported⟩
  else match r with
  | none => ⟨[],some .streamReaderRequired⟩
  | some reader => replay server (mysqlReached point) reader.failure reader.records
end

structure BinlogEvent where
  logName : Bytes
  pos : Nat
  data : Bytes

def BinlogEvent.position (event : BinlogEvent) : Bytes := event.logName ++ 0x3A :: decimal event.pos

def mysqlStream (events : List BinlogEvent) : List StreamRecord :=
  events.map fun event => ⟨event.position,none,event.data⟩

-- The order of a server's logs is the server's own; within a log offsets count.
def BinlogEvent.place (rank : Bytes → Nat) (event : BinlogEvent) : Nat ×ₗ Nat := toLex (rank event.logName,event.pos)

-- A change of the write-ahead log: the two halves of its LSN and its text.
structure WalChange where
  high : Nat
  low : Nat
  data : Bytes

def hexDigit (n : Nat) : UInt8 := UInt8.ofNat (if n % 16 < 10 then 0x30 + n % 16 else 0x37 + n % 16)

def hexFrom : Nat → Nat → Bytes
  | 0,_ => []
  | fuel+1,n => if n < 16 then [hexDigit n] else hexFrom fuel (n / 16) ++ [hexDigit n]

def hexadecimal (n : Nat) : Bytes := hexFrom (n+1) n

def WalChange.position (change : WalChange) : Bytes := hexadecimal change.high ++ 0x2F :: hexadecimal change.low

def WalChange.place (change : WalChange) : Nat ×ₗ Nat := toLex (change.high,change.low)

def postgresStream (changes : List WalChange) : List StreamRecord :=
  changes.map fun change => ⟨change.position,none,change.data⟩

section
variable {α P : Type} [Preorder P] [DecidableLT P] (place : α → P) (text payload : α → Bytes) (target : P) (mark : Bytes)

-- The payloads that have to be replayed; where there is none there is nothing
-- to do.
def due (items : List α) : List Bytes :=
  ((items.filter fun item => decide (place item < target)).filter fun item => decide (payload item ≠ [])).map payload

-- Up to every record with a payload, the texts of the positions are below the
-- text of the target exactly when the record lies before the target.
def TextsAgree (items : List α) : Prop := ∀ before item after, items = before ++ item :: after → payload item ≠ [] →
  ((∀ x ∈ before ++ [item], text x < mark) ↔ place item < target)

variable {place text payload target mark} {items : List α} {p q f : α → Bool} {g : α → Bytes}

theorem cut_reaches (before : List α) : (∀ x ∈ before ++ [item], p x = true) ↔
    before.length < ((before ++ item :: after).takeWhile p).length := by
  induction before with
  | nil => cases here : p item <;> simp [here]
  | cons a _ ih =>
    cases here : p a with
    | false => simp [here]
    | true => simpa [here] using ih

theorem takes_agree (less : m ≤ n) : ((items.take m).filter f).map g = ((items.take n).filter f).map g ↔
    ∀ before item after, items = before ++ item :: after → f item = true → (before.length < m ↔ before.length < n) := by
  have parts : items.take n = items.take m ++ (items.take n).drop m := by
    have first : (items.take n).take m = items.take m := by rw [List.take_take,Nat.min_eq_left less]
    rw [← first,List.take_append_drop]
  rw [parts,List.filter_append,List.map_append,List.self_eq_append_right,List.map_eq_nil_iff,List.filter_eq_nil_iff]
  constructor
  · rintro none before item after rfl chosen
    refine ⟨fun inside => by omega,fun inside => Nat.lt_of_not_le fun past => none item ?_ chosen⟩
    refine List.mem_iff_getElem?.mpr ⟨before.length - m,?_⟩
    rw [List.getElem?_drop,Nat.add_sub_cancel' past,List.getElem?_take_of_lt inside]
    simp
  · intro agree item member chosen
    obtain ⟨i,there⟩ := List.mem_iff_getElem?.mp member
    obtain ⟨before,there⟩ : m + i < n ∧ items[m + i]? = some item := by
      simpa [List.getElem?_drop,List.getElem?_take] using there
    obtain ⟨inside,found⟩ := List.getElem?_eq_some_iff.mp there
    have split : items = items.take (m + i) ++ item :: items.drop (m + i + 1) := by
      rw [← found,← List.drop_eq_getElem_cons inside,List.take_append_drop]
    have place := agree _ item _ split chosen
    rw [List.length_take_of_le (by omega)] at place
    omega

theorem cuts_agree : ((items.takeWhile p).filter f).map g = ((items.takeWhile q).filter f).map g ↔
    ∀ before item after, items = before ++ item :: after → f item = true →
      ((∀ x ∈ before ++ [item], p x = true) ↔ ∀ x ∈ before ++ [item], q x = true) := by
  have cut (r : α → Bool) : items.takeWhile r = items.take (items.takeWhile r).length :=
    List.prefix_iff_eq_take.mp (List.takeWhile_prefix r)
  have placed : (∀ before item after, items = before ++ item :: after → f item = true →
      (before.length < (items.takeWhile p).length ↔ before.length < (items.takeWhile q).length)) ↔
      ∀ before item after, items = before ++ item :: after → f item = true →
        ((∀ x ∈ before ++ [item], p x = true) ↔ ∀ x ∈ before ++ [item], q x = true) := by
    refine forall₄_congr fun before item after split => ?_
    rw [split,← cut_reaches,← cut_reaches]
  rw [cut p,cut q,← placed]
  rcases Nat.le_total (items.takeWhile p).length (items.takeWhile q).length with less | less
  · exact takes_agree less
  · rw [eq_comm,takes_agree less]
    simp only [iff_comm]

theorem filter_takeWhile (increasing : items.Pairwise fun a b => place a < place b) :
    items.filter (fun item => decide (place item < target)) = items.takeWhile fun item => decide (place item < target) := by
  induction items with
  | nil => rfl
  | cons a _ ih =>
    obtain ⟨above,later⟩ := List.pairwise_cons.mp increasing
    rw [List.filter_cons,List.takeWhile_cons]
    by_cases here : place a < target
    · rw [if_pos (decide_eq_true here),if_pos (decide_eq_true here),ih later]
    · rw [if_neg (by simpa using here),if_neg (by simpa using here)]
      refine List.filter_eq_nil_iff.mpr fun b member => ?_
      simpa using fun before => here ((above b member).trans before)

theorem before_all (increasing : (before ++ item :: after).Pairwise fun a b => place a < place b) :
    (∀ x ∈ before ++ [item], decide (place x < target) = true) ↔ place item < target := by
  constructor
  · intro all
    exact decide_eq_true_iff.mp (all item (by simp))
  · intro less x member
    rcases List.mem_append.mp member with early | last
    · exact decide_eq_true ((List.pairwise_append.mp increasing).2.2 x early item List.mem_cons_self |>.trans less)
    · rw [List.mem_singleton.mp last]
      exact decide_eq_true less

theorem cut_exact (increasing : items.Pairwise fun a b => place a < place b) :
    ((items.takeWhile fun item => decide (text item < mark)).filter fun item => decide (payload item ≠ [])).map payload =
      due place payload target items ↔ TextsAgree place text payload target mark items := by
  unfold due
  rw [filter_takeWhile increasing,cuts_agree]
  refine forall₄_congr fun before item after split => ?_
  rw [before_all (split ▸ increasing : (before ++ item :: after).Pairwise fun a b => place a < place b)]
  simp
end

variable {server : Bytes → Option Bytes} {reached : StreamRecord → Bool} {records : List StreamRecord} {target : Target}

theorem replay_exact (accepts : ∀ payload, server payload = none) : replay server reached none records =
    ⟨((records.takeWhile fun record => !reached record).filter fun record => decide (record.payload ≠ [])).map
      StreamRecord.payload,none⟩ := by
  induction records with
  | nil => rfl
  | cons record _ ih =>
    unfold replay
    cases here : reached record with
    | true =>
      rw [if_pos rfl,List.takeWhile_cons,here]
      rfl
    | false =>
      rw [if_neg Bool.false_ne_true,List.takeWhile_cons,here,Bool.not_false,if_pos rfl,List.filter_cons]
      by_cases empty : record.payload = []
      · rw [if_pos empty,if_neg (by simpa using empty)]
        exact ih
      · rw [if_neg empty,if_pos (by simpa using empty),accepts,ih]
        rfl

theorem reached_exact {point position payload : Bytes} (some : point ≠ []) (placed : position ≠ []) :
    (!postgresReached ⟨point,none⟩ ⟨position,none,payload⟩) = decide (position < point) ∧
      (!mysqlReached ⟨point,none⟩ ⟨position,none,payload⟩) = decide (position < point) := by
  have opposite : decide (point ≤ position) = !decide (position < point) := by
    rw [← decide_not,decide_eq_decide]
    exact not_lt.symm
  constructor
  · simp [postgresReached,late,some,placed,opposite]
  · simp [mysqlReached,late,some,opposite]

theorem position_some (change : WalChange) : change.position ≠ [] := by simp [WalChange.position]

theorem event_some (event : BinlogEvent) : event.position ≠ [] := by simp [BinlogEvent.position]

section
variable {α P : Type} [Preorder P] [DecidableLT P] {place : α → P} {text payload : α → Bytes} {until_ : P} {mark : Bytes}
  {items : List α}

theorem replay_texts (accepts : ∀ payload, server payload = none) (increasing : items.Pairwise fun a b => place a < place b)
    (stops : ∀ item, (!reached ⟨text item,none,payload item⟩) = decide (text item < mark)) :
    replay server reached none (items.map fun item => ⟨text item,none,payload item⟩) =
      ⟨due place payload until_ items,none⟩ ↔ TextsAgree place text payload until_ mark items := by
  have same : ((fun record => !reached record) ∘ fun item => ⟨text item,none,payload item⟩) =
      fun item => decide (text item < mark) := funext stops
  rw [replay_exact accepts,List.takeWhile_map,List.filter_map,List.map_map,same,Replay.mk.injEq,and_iff_left rfl]
  exact cut_exact increasing

end

-- A replay over the native protocol sends exactly what lies before the target
-- point when the texts of the positions are ordered like the positions, as far
-- as the records with payloads go.
theorem replay_exactly_when_texts_agree (server : Bytes → Option Bytes) (accepts : ∀ payload, server payload = none)
    (target : Target) :
    (∀ (changes : List WalChange) (point : WalChange), changes.Pairwise (fun a b => a.place < b.place) →
      (postgresReplayStream server target (some ⟨postgresStream changes,none⟩) ⟨point.position,none⟩ =
          ⟨due WalChange.place WalChange.data point.place changes,none⟩ ↔
        postgresNative target = true ∧
          TextsAgree WalChange.place WalChange.position WalChange.data point.place point.position changes)) ∧
    ∀ (rank : Bytes → Nat) (events : List BinlogEvent) (point : BinlogEvent),
      events.Pairwise (fun a b => a.place rank < b.place rank) →
      (mysqlReplayStream server target (some ⟨mysqlStream events,none⟩) ⟨point.position,none⟩ =
          ⟨due (BinlogEvent.place rank) BinlogEvent.data (point.place rank) events,none⟩ ↔
        mysqlNative target = true ∧
          TextsAgree (BinlogEvent.place rank) BinlogEvent.position BinlogEvent.data (point.place rank) point.position events) := by
  refine ⟨fun changes point increasing => ?_,fun rank events point increasing => ?_⟩
  · unfold postgresReplayStream
    cases native : postgresNative target with
    | false => simp
    | true =>
      simp only [if_neg Bool.false_ne_true.symm,true_and]
      exact replay_texts accepts increasing fun change => (reached_exact (position_some point) (position_some change)).1
  · unfold mysqlReplayStream
    cases native : mysqlNative target with
    | false => simp
    | true =>
      simp only [if_neg Bool.false_ne_true.symm,true_and]
      exact replay_texts accepts increasing fun event => (reached_exact (event_some point) (event_some event)).2

def plainTarget : Target := ⟨fun _ => [],fun _ => []⟩

def walChanges : List WalChange := [⟨0,0x10,ascii "a"⟩,⟨0,0x1F,[]⟩,⟨0,0x20,ascii "b"⟩,⟨0,0x2A,ascii "c"⟩]

def binlogEvents : List BinlogEvent :=
  [⟨ascii "binlog.000001",154,ascii "a"⟩,⟨ascii "binlog.000001",219,ascii "b"⟩,⟨ascii "binlog.000002",157,ascii "c"⟩]

def lastByte (logName : Bytes) : Nat := (logName.getLast?.getD 0).toNat

-- Between texts of one length the two orders agree.
theorem replay_within_one_length :
    (postgresNative plainTarget = true ∧ TextsAgree WalChange.place WalChange.position WalChange.data
      (WalChange.place ⟨0,0x2A,[]⟩) (WalChange.position ⟨0,0x2A,[]⟩) walChanges) ∧
    mysqlNative plainTarget = true ∧ TextsAgree (BinlogEvent.place lastByte) BinlogEvent.position BinlogEvent.data
      (BinlogEvent.place lastByte ⟨ascii "binlog.000002",157,[]⟩) (BinlogEvent.position ⟨ascii "binlog.000002",157,[]⟩)
      binlogEvents := by
  have both := replay_exactly_when_texts_agree (fun _ => none) (fun _ => rfl) plainTarget
  exact ⟨(both.1 walChanges ⟨0,0x2A,[]⟩ (by decide)).mp (by decide +kernel),
    (both.2 lastByte binlogEvents ⟨ascii "binlog.000002",157,[]⟩ (by decide)).mp (by decide +kernel)⟩

-- An LSN or an offset with one digit more sorts first: the replay ends before
-- the record it should send, or goes on past the point.
theorem replay_misses_and_exceeds :
    (postgresReplayStream (fun _ => none) plainTarget (some ⟨postgresStream [⟨0,0x9,ascii "a"⟩],none⟩)
      ⟨WalChange.position ⟨0,0x10,[]⟩,none⟩ = ⟨[],none⟩ ∧
      due WalChange.place WalChange.data (WalChange.place ⟨0,0x10,[]⟩) [⟨0,0x9,ascii "a"⟩] = [ascii "a"]) ∧
    (postgresReplayStream (fun _ => none) plainTarget (some ⟨postgresStream [⟨0,0x10,ascii "a"⟩],none⟩)
      ⟨WalChange.position ⟨0,0x9,[]⟩,none⟩ = ⟨[ascii "a"],none⟩ ∧
      due WalChange.place WalChange.data (WalChange.place ⟨0,0x9,[]⟩) [⟨0,0x10,ascii "a"⟩] = []) ∧
    mysqlReplayStream (fun _ => none) plainTarget (some ⟨mysqlStream [⟨ascii "binlog.000001",99,ascii "a"⟩],none⟩)
      ⟨BinlogEvent.position ⟨ascii "binlog.000001",100,[]⟩,none⟩ = ⟨[],none⟩ ∧
      due (BinlogEvent.place fun _ => 0) BinlogEvent.data (BinlogEvent.place (fun _ => 0) ⟨ascii "binlog.000001",100,[]⟩)
        [⟨ascii "binlog.000001",99,ascii "a"⟩] = [ascii "a"] := by
  decide +kernel

end Kronos.StreamReplay
