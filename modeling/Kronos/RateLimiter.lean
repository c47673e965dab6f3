import Kronos.Agents

namespace Kronos.RateLimiter
open ByteRange Rfc3339 Agents

-- A request at the time the server reads from its clock, which is never the zero time.
structure Request where
  client : Bytes
  now : Time
  told : now.isZero = false

structure AuthRateWindow where
  start : Time
  count : Int64

structure AuthRateLimiter where
  limit : Int64
  window : Int64
  clients : Bytes → Option AuthRateWindow
  ticks : UInt64
  limited : UInt64
  admits : 0 < limit
  lasts : 0 < window

def authVerifyRateLimit : Int64 := 10

def authVerifyRateWindow : Int64 := 60 * 1000000000

def orElse (value standard : Int64) : Int64 := if value ≤ 0 then standard else value

theorem orElse_pos (pos : 0 < standard) : 0 < orElse value standard := by
  unfold orElse
  split
  · exact pos
  · rename_i above
    exact Int64.not_le.mp above

theorem standard_pos : 0 < authVerifyRateLimit ∧ 0 < authVerifyRateWindow := by decide

def newAuthRateLimiter (limit window : Int64) : AuthRateLimiter where
  limit := orElse limit authVerifyRateLimit
  window := orElse window authVerifyRateWindow
  clients := fun _ => none
  ticks := 0
  limited := 0
  admits := orElse_pos standard_pos.1
  lasts := orElse_pos standard_pos.2

namespace AuthRateLimiter

def expired (l : AuthRateLimiter) (now : Time) (window : AuthRateWindow) : Bool :=
  window.start.isZero || decide (l.window.toInt ≤ since now window.start)

def pruneLocked (l : AuthRateLimiter) (now : Time) : AuthRateLimiter :=
  {l with clients := fun key => (l.clients key).filter fun window => !l.expired now window}

def tick (l : AuthRateLimiter) (now : Time) : AuthRateLimiter :=
  let l := {l with ticks := l.ticks + 1}
  if l.ticks % l.limit.toUInt64 = 0 then l.pruneLocked now else l

def set (l : AuthRateLimiter) (key : Bytes) (window : AuthRateWindow) : AuthRateLimiter :=
  {l with clients := Function.update l.clients key (some window)}

-- A client that is not in the map has the zero window.
def allow (l : AuthRateLimiter) (r : Request) : Bool × AuthRateLimiter :=
  let l := l.tick r.now
  let window := (l.clients r.client).getD ⟨Time.zero,0⟩
  if l.expired r.now window then (true,l.set r.client ⟨r.now,1⟩)
  else if l.limit ≤ window.count then (false,{l with limited := l.limited + 1})
  else (true,l.set r.client {window with count := window.count + 1})

def answers (l : AuthRateLimiter) : List Request → List (Request × Bool)
  | [] => []
  | r :: rest => (r,(l.allow r).1) :: answers (l.allow r).2 rest

end AuthRateLimiter

-- One client alone: a window begins with the first request after the one
-- before expired, and admits so many.
structure Counter where
  limit : Int
  window : Int

namespace Counter

structure Window where
  start : Int
  admitted : Int

def feed (c : Counter) (now : Int) : Option Window → Bool × Window
  | none => (true,⟨now,1⟩)
  | some w =>
    if w.start + c.window ≤ now then (true,⟨now,1⟩)
    else if w.admitted < c.limit then (true,⟨w.start,w.admitted + 1⟩)
    else (false,w)

def decisions (c : Counter) (w : Option Window) : List Int → List Bool
  | [] => []
  | now :: rest => (c.feed now w).1 :: decisions c (some (c.feed now w).2) rest

end Counter

namespace AuthRateLimiter

def alone (l : AuthRateLimiter) : Counter := ⟨l.limit.toInt,l.window.toInt⟩

section
variable {l : AuthRateLimiter} {r : Request} {key : Bytes}

theorem tick_frame (l : AuthRateLimiter) (now : Time) : (l.tick now).limit = l.limit ∧ (l.tick now).window = l.window := by
  unfold tick
  dsimp only
  split
  · exact ⟨rfl,rfl⟩
  · exact ⟨rfl,rfl⟩

theorem allow_alone (l : AuthRateLimiter) (r : Request) : (l.allow r).2.alone = l.alone := by
  obtain ⟨limit,window⟩ := tick_frame l r.now
  have same : (l.tick r.now).alone = l.alone := by rw [alone,limit,window]; rfl
  unfold allow
  dsimp only
  split
  · exact same
  split
  · exact same
  · exact same

theorem expired_iff (l : AuthRateLimiter) {window : AuthRateWindow} (shown : window.start.isZero = false) :
    l.expired now window = true ↔ window.start.instant + l.alone.window ≤ now.instant := by
  have pos := Int64.lt_iff_toInt_lt.mp l.lasts
  have bound := l.window.toInt_lt
  change (0 : Int) < _ at pos
  rw [expired,shown,Bool.false_or,decide_eq_true_eq]
  simp only [since,maxDuration,alone]
  omega

-- A client that the map has lost has no window, or one that expired.
structure Follows (l : AuthRateLimiter) (key : Bytes) (now : Int) (w : Option Counter.Window) : Prop where
  lost : l.clients key = none → ∀ old ∈ w, old.start + l.alone.window ≤ now
  held : ∀ window, l.clients key = some window →
    window.start.isZero = false ∧ w = some ⟨window.start.instant,window.count.toInt⟩

theorem Follows.later {now later : Int} {w : Option Counter.Window} (follows : l.Follows key now w) (after : now ≤ later) :
    l.Follows key later w :=
  ⟨fun gone old member => le_trans (follows.lost gone old member) after,follows.held⟩

theorem pruneLocked_follows (follows : l.Follows key now.instant w) :
    (l.pruneLocked now).Follows key now.instant w := by
  constructor
  · intro gone old member
    cases present : l.clients key with
    | none => exact follows.lost present old member
    | some window =>
      obtain ⟨shown,same⟩ := follows.held window present
      change (l.clients key).filter _ = none at gone
      rw [present,Option.filter_some] at gone
      subst same
      cases member
      apply (l.expired_iff shown).mp
      by_contra fresh
      rw [if_pos (by rw [Bool.not_eq_true] at fresh; rw [fresh]; rfl)] at gone
      cases gone
  · intro window present
    exact follows.held window (Option.filter_eq_some_iff.mp present).1

theorem tick_follows (follows : l.Follows key now.instant w) : (l.tick now).Follows key now.instant w := by
  unfold tick
  dsimp only
  split
  · exact pruneLocked_follows ⟨follows.lost,follows.held⟩
  · exact ⟨follows.lost,follows.held⟩

theorem set_follows (l : AuthRateLimiter) (key : Bytes) {window : AuthRateWindow} (now : Int)
    (shown : window.start.isZero = false) :
    (l.set key window).Follows key now (some ⟨window.start.instant,window.count.toInt⟩) := by
  have here : (l.set key window).clients key = some window := Function.update_self _ _ _
  constructor
  · intro gone
    rw [here] at gone
    cases gone
  · intro other present
    rw [here] at present
    cases present
    exact ⟨shown,rfl⟩

theorem set_other {window : AuthRateWindow} (follows : l.Follows key now w) (apart : key ≠ other) :
    (l.set other window).Follows key now w := by
  have same : (l.set other window).clients key = l.clients key := Function.update_of_ne apart _ _
  exact ⟨same ▸ follows.lost,same ▸ follows.held⟩

theorem allow_other (follows : l.Follows key r.now.instant w) (apart : key ≠ r.client) :
    (l.allow r).2.Follows key r.now.instant w := by
  have ticked := tick_follows follows
  unfold allow
  dsimp only
  split
  · exact set_other ticked apart
  split
  · exact ⟨ticked.lost,ticked.held⟩
  · exact set_other ticked apart

theorem count_next {limit : Int64} (room : ¬ limit ≤ count) : (count + 1).toInt = count.toInt + 1 := by
  have low := count.le_toInt
  have high := limit.toInt_lt
  rw [Int64.le_iff_toInt_le] at room
  rw [Int64.toInt_add]
  change (count.toInt + 1).bmod _ = _
  rw [Int.bmod_eq_of_le (by omega) (by omega)]

theorem allow_own (follows : l.Follows r.client r.now.instant w) : (l.allow r).1 = (l.alone.feed r.now.instant w).1 ∧
      (l.allow r).2.Follows r.client r.now.instant (some (l.alone.feed r.now.instant w).2) := by
  have ticked := tick_follows follows
  obtain ⟨limit,span⟩ := tick_frame l r.now
  have same : (l.tick r.now).alone = l.alone := by rw [alone,limit,span]; rfl
  rw [← same]
  unfold allow
  dsimp only
  generalize l.tick r.now = l at ticked
  cases present : l.clients r.client with
  | none =>
    have fresh : l.alone.feed r.now.instant w = (true,⟨r.now.instant,1⟩) := by
      cases w with
      | none => rfl
      | some old => rw [Counter.feed,if_pos (ticked.lost present old rfl)]
    have unset : l.expired r.now ⟨Time.zero,0⟩ = true := rfl
    rw [fresh,Option.getD_none,if_pos unset]
    exact ⟨rfl,l.set_follows r.client _ r.told⟩
  | some window =>
    obtain ⟨shown,rfl⟩ := ticked.held window present
    rw [Option.getD_some,Counter.feed]
    by_cases ended : l.expired r.now window = true
    · rw [if_pos ended,if_pos ((l.expired_iff shown).mp ended)]
      exact ⟨rfl,l.set_follows r.client _ r.told⟩
    rw [if_neg ended,if_neg (fun past => ended ((l.expired_iff shown).mpr past))]
    by_cases full : l.limit ≤ window.count
    · have most := Int64.le_iff_toInt_le.mp full
      rw [if_pos full,if_neg (by simp only [alone]; omega)]
      exact ⟨rfl,ticked.lost,ticked.held⟩
    · have next := count_next full
      rw [if_neg full,if_pos (by rw [Int64.le_iff_toInt_le] at full; simp only [alone]; omega),← next]
      exact ⟨rfl,l.set_follows r.client _ shown⟩

theorem answers_follow (follows : l.Follows key now w) (after : ∀ r ∈ requests, now ≤ r.now.instant)
    (ordered : requests.Pairwise fun a b => a.now.instant ≤ b.now.instant) :
    ((l.answers requests).filter fun answer => answer.1.client = key).map Prod.snd =
      l.alone.decisions w ((requests.filter fun r => r.client = key).map fun r => r.now.instant) := by
  induction requests generalizing l w now with
  | nil => rfl
  | cons r _ ih =>
    obtain ⟨next,ordered⟩ := List.pairwise_cons.mp ordered
    have current := follows.later (after r List.mem_cons_self)
    have kept := allow_alone l r
    by_cases own : r.client = key
    · subst own
      obtain ⟨same,follows⟩ := allow_own current
      have later := ih follows next ordered
      rw [kept] at later
      rw [answers,List.filter_cons_of_pos (by simp),List.filter_cons_of_pos (by simp),List.map_cons,List.map_cons,
        Counter.decisions,later,same]
    · have later := ih (allow_other current (fun same => own same.symm)) next ordered
      rw [kept] at later
      rw [answers,List.filter_cons_of_neg (by simpa using own),List.filter_cons_of_neg (by simpa using own),later]

end

end AuthRateLimiter

open AuthRateLimiter

-- Ten requests a minute, where nothing positive is given.
def Counter.configured (limit window : Int) : Counter :=
  ⟨if 0 < limit then limit else 10,if 0 < window then window else 60000000000⟩

theorem new_alone (limit window : Int64) :
    (newAuthRateLimiter limit window).alone = .configured limit.toInt window.toInt := by
  have chosen (value standard : Int64) :
      (orElse value standard).toInt = if 0 < value.toInt then value.toInt else standard.toInt := by
    simp only [orElse,Int64.le_iff_toInt_le,← Int.not_lt]
    split <;> simp_all
  rw [alone,newAuthRateLimiter,chosen,chosen]
  rfl

theorem limiter_refines_client_counters (limit window : Int64) {requests : List Request}
    (ordered : requests.Pairwise fun a b => a.now.instant ≤ b.now.instant) (client : Bytes) :
    (((newAuthRateLimiter limit window).answers requests).filter fun answer => answer.1.client = client).map Prod.snd =
      (Counter.configured limit.toInt window.toInt).decisions none
        ((requests.filter fun r => r.client = client).map fun r => r.now.instant) := by
  rw [← new_alone]
  cases requests with
  | nil => rfl
  | cons r =>
    obtain ⟨next,_⟩ := List.pairwise_cons.mp ordered
    have start : (newAuthRateLimiter limit window).Follows client r.now.instant none := by
      constructor
      · intro _ old member
        cases member
      · intro window present
        cases present
    apply answers_follow start ?_ ordered
    intro other member
    rcases List.mem_cons.mp member with rfl | later
    · exact le_refl _
    · exact next other later

def hammered : List Request :=
  [⟨[1],⟨1000000000,0⟩,rfl⟩,⟨[2],⟨2000000000,0⟩,rfl⟩,⟨[1],⟨3000000000,0⟩,rfl⟩,⟨[1],⟨4000000000,0⟩,rfl⟩,
    ⟨[1],⟨61000000000,0⟩,rfl⟩]

theorem third_request_limited :
    (((newAuthRateLimiter 2 0).answers hammered).filter fun answer => answer.1.client = [1]).map Prod.snd =
      [true,true,false,true] :=
  (limiter_refines_client_counters 2 0 (by unfold hammered; decide) [1]).trans (by decide)

end Kronos.RateLimiter
