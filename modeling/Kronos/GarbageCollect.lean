import Kronos.ManifestLoad
import Kronos.ObjectListing
import Kronos.Termination

namespace Kronos.GarbageCollect
open ByteRange Utf8 ObjectStore ManifestFormat ManifestCommit ObjectListing Termination

inductive Cause
  | commit (fault : ManifestCommit.Fault) | backend (message : Bytes)
  deriving DecidableEq

inductive Fault
  | backendRequired | load (key : Bytes) (cause : Cause) | storage (cause : Cause)
  deriving DecidableEq

structure GCReport where
  manifests : Int
  referencedChunks : Int
  scannedChunks : Int
  deletedChunks : Int
  deletedBytes : Int64
  orphanChunks : List ObjectInfo
  deriving DecidableEq

inductive Task
  | manifests (walk : Walk) | data (walk : Walk) | done | failed (fault : Fault)
  deriving DecidableEq

structure Collector where
  task : Task
  marked : List Bytes
  report : GCReport
  deriving DecidableEq

def manifestFolder : Bytes := ascii "manifests/"

def dataFolder : Bytes := ascii "data/"

def start (backend : Option Environment) : Collector where
  task := if backend.isSome then .manifests (.ask []) else .failed .backendRequired
  marked := []
  report := ⟨0,0,0,0,0,[]⟩

def keys (m : Manifest) : List Bytes :=
  (m.objects.getD []).flatMap (fun object => (object.chunks.getD []).map ChunkRef.key)

def mark (c : Collector) (key : Bytes) : Collector :=
  if key = [] then c
  else if key ∈ c.marked then c
  else {c with
    marked := key :: c.marked
    report := {c.report with referencedChunks := c.report.referencedChunks + 1}}

def markAll (c : Collector) (m : Manifest) : Collector :=
  (keys m).foldl mark {c with report := {c.report with manifests := c.report.manifests + 1}}

def scan (c : Collector) : Collector :=
  {c with report := {c.report with scannedChunks := c.report.scannedChunks + 1}}

def orphan (c : Collector) (object : ObjectInfo) : Collector :=
  {scan c with report := {(scan c).report with orphanChunks := c.report.orphanChunks ++ [object]}}

def deleted (c : Collector) (object : ObjectInfo) : Collector :=
  {orphan c object with report := {(orphan c object).report with
    deletedChunks := c.report.deletedChunks + 1
    deletedBytes := c.report.deletedBytes + Int64.ofNat object.size}}

section
variable (env : Environment) (pageSize : Nat) (publicKey : Bytes) (dryRun : Bool)

def deleteObject (key : Bytes) (store : Store) : Except ManifestCommit.Fault Store :=
  if env.acceptsKey key = false then .error (.invalidKey key) else .ok (store.delete key)

inductive Step (store : Store) (c : Collector) : Store → Collector → Prop
  -- The manifests are listed and loaded.
  | listManifests (token : Bytes) (task : c.task = .manifests (.ask token)) :
      Step store c store {c with task := .manifests (.visit
        (list env pageSize store manifestFolder token).objects (list env pageSize store manifestFolder token).nextToken)}
  | load (object info : ObjectInfo) (rest : List ObjectInfo) (next : Bytes) (m : Manifest)
      (task : c.task = .manifests (.visit (object :: rest) next))
      (loaded : loadManifest env store object.key publicKey = .ok (m,info)) :
      Step store c store {markAll c m with task := .manifests (.visit rest next)}
  | loadFails (object : ObjectInfo) (rest : List ObjectInfo) (next : Bytes) (fault : ManifestCommit.Fault)
      (task : c.task = .manifests (.visit (object :: rest) next))
      (refused : loadManifest env store object.key publicKey = .error fault) :
      Step store c store {c with task := .failed (.load object.key (.commit fault))}
  | nextManifests (next : Bytes) (task : c.task = .manifests (.visit [] next)) :
      Step store c store {c with task := if next = [] then .data (.ask []) else .manifests (.ask next)}
  -- The chunks are listed and those without a mark deleted.
  | listData (token : Bytes) (task : c.task = .data (.ask token)) :
      Step store c store {c with task := .data (.visit
        (list env pageSize store dataFolder token).objects (list env pageSize store dataFolder token).nextToken)}
  | keep (object : ObjectInfo) (rest : List ObjectInfo) (next : Bytes)
      (task : c.task = .data (.visit (object :: rest) next)) (marked : object.key ∈ c.marked) :
      Step store c store {scan c with task := .data (.visit rest next)}
  | spare (object : ObjectInfo) (rest : List ObjectInfo) (next : Bytes)
      (task : c.task = .data (.visit (object :: rest) next)) (unmarked : object.key ∉ c.marked)
      (dry : dryRun = true) : Step store c store {orphan c object with task := .data (.visit rest next)}
  | delete (object : ObjectInfo) (rest : List ObjectInfo) (next : Bytes) (after : Store)
      (task : c.task = .data (.visit (object :: rest) next)) (unmarked : object.key ∉ c.marked)
      (wet : dryRun = false) (removed : deleteObject env object.key store = .ok after) :
      Step store c after {deleted c object with task := .data (.visit rest next)}
  | deleteFails (object : ObjectInfo) (rest : List ObjectInfo) (next : Bytes) (fault : ManifestCommit.Fault)
      (task : c.task = .data (.visit (object :: rest) next)) (unmarked : object.key ∉ c.marked)
      (wet : dryRun = false) (refused : deleteObject env object.key store = .error fault) :
      Step store c store {orphan c object with task := .failed (.storage (.commit fault))}
  | nextData (next : Bytes) (task : c.task = .data (.visit [] next)) :
      Step store c store {c with task := if next = [] then .done else .data (.ask next)}
  -- A call of the backend fails, or the context is done; what was to be deleted
  -- may be gone.
  | listBreaks (token message : Bytes) (task : c.task = .manifests (.ask token) ∨ c.task = .data (.ask token)) :
      Step store c store {c with task := .failed (.storage (.backend message))}
  | loadBreaks (object : ObjectInfo) (rest : List ObjectInfo) (next message : Bytes)
      (task : c.task = .manifests (.visit (object :: rest) next)) :
      Step store c store {c with task := .failed (.load object.key (.backend message))}
  | deleteBreaks (object : ObjectInfo) (rest : List ObjectInfo) (next message : Bytes) (after : Store)
      (task : c.task = .data (.visit (object :: rest) next)) (unmarked : object.key ∉ c.marked)
      (wet : dryRun = false) (left : after = store ∨ deleteObject env object.key store = .ok after) :
      Step store c after {orphan c object with task := .failed (.storage (.backend message))}

inductive Reached (store : Store) : Store → Collector → Prop
  | start : Reached store store (start (some env))
  | step {middle after : Store} {c next : Collector} (before : Reached store middle c)
      (step : Step env pageSize publicKey dryRun middle c after next) : Reached store after next

def Names (m : Manifest) (key : Bytes) : Prop :=
  ∃ objects, m.objects = some objects ∧ ∃ object ∈ objects, ∃ chunks, object.chunks = some chunks ∧
    ∃ chunk ∈ chunks, chunk.key = key

def Referenced (store : Store) (key : Bytes) : Prop :=
  ∃ name m info, manifestFolder.isPrefixOf name = true ∧ loadManifest env store name publicKey = .ok (m,info) ∧
    Names m key

def Orphan (store : Store) (key : Bytes) : Prop :=
  dataFolder.isPrefixOf key = true ∧ ¬ Referenced env publicKey store key

end

def Ended (task : Task) : Prop := task = .done ∨ ∃ fault, task = .failed fault

def Marking (task : Task) : Prop := ∃ walk, task = .manifests walk

section
variable {env : Environment} {pageSize : Nat} {publicKey : Bytes} {dryRun : Bool} {store s after : Store}
  {c next : Collector}

theorem names_iff : Names m key ↔ key ∈ keys m := by
  have some_iff {α : Type} {given : Option (List α)} {p : α → Prop} :
      (∃ listed, given = some listed ∧ ∃ a ∈ listed, p a) ↔ ∃ a ∈ given.getD [], p a := by
    cases given <;> simp
  simp only [Names,some_iff,keys,List.mem_flatMap,List.mem_map]

theorem mark_marked (c : Collector) (key other : Bytes) :
    other ∈ (mark c key).marked ↔ other ∈ c.marked ∨ (other = key ∧ other ≠ []) := by
  unfold mark
  split
  · rename_i empty
    simp [empty]
  · split
    · rename_i known
      exact ⟨Or.inl,fun either => either.elim id fun named => named.1 ▸ known⟩
    · rename_i some _
      have filled : other = key → other ≠ [] := fun same => same ▸ some
      simp [and_iff_left_of_imp filled,or_comm]

theorem foldl_marked (found : List Bytes) (c : Collector) (key : Bytes) :
    key ∈ (found.foldl mark c).marked ↔ key ∈ c.marked ∨ (key ∈ found ∧ key ≠ []) := by
  induction found generalizing c with
  | nil => simp
  | cons _ _ ih => rw [List.foldl_cons,ih,mark_marked,List.mem_cons,or_and_right,or_assoc]

theorem markAll_marked (c : Collector) (m : Manifest) (key : Bytes) :
    key ∈ (markAll c m).marked ↔ key ∈ c.marked ∨ (key ∈ keys m ∧ key ≠ []) := foldl_marked (keys m) _ key

theorem loaded_there {info : ObjectInfo} (loaded : loadManifest env store name publicKey = .ok (m,info)) :
    ∃ data, store.get name = some data := by
  unfold loadManifest getObject at loaded
  cases found : store.get name with
  | some data => exact ⟨data,rfl⟩
  | none =>
    rw [found] at loaded
    split at loaded
    · cases loaded
    · split at loaded <;> cases loaded

theorem deleteObject_exact (removed : deleteObject env key store = .ok after) : after = store.delete key := by
  unfold deleteObject at removed
  split at removed
  · cases removed
  · exact (Except.ok.inj removed).symm

theorem step_store (step : Step env pageSize publicKey dryRun s c after next) :
    after = s ∨ ∃ object rest token, c.task = .data (.visit (object :: rest) token) ∧ object.key ∉ c.marked ∧
      dryRun = false ∧ after = s.delete object.key := by
  cases step with
  | delete object rest next _ task unmarked wet removed =>
    exact Or.inr ⟨object,rest,next,task,unmarked,wet,deleteObject_exact removed⟩
  | deleteBreaks object rest next _ _ task unmarked wet left =>
    rcases left with same | removed
    · exact Or.inl same
    · exact Or.inr ⟨object,rest,next,task,unmarked,wet,deleteObject_exact removed⟩
  | listManifests | load | loadFails | nextManifests | listData | keep | spare | deleteFails | nextData | listBreaks
  | loadBreaks => exact Or.inl rfl

variable (env publicKey store) in
def Complete (marked : List Bytes) : Prop :=
  ∀ key, key ≠ [] → Referenced env publicKey store key → key ∈ marked

variable (env publicKey dryRun store) in
def Stage (s : Store) (marked : List Bytes) : Task → Prop
  | .manifests walk => s = store ∧ walk.Inside manifestFolder ∧ ∀ name m info, manifestFolder.isPrefixOf name = true →
      loadManifest env store name publicKey = .ok (m,info) →
        (∀ key ∈ keys m, key ≠ [] → key ∈ marked) ∨ walk.Ahead name
  | .data walk => Complete env publicKey store marked ∧ walk.Inside dataFolder ∧
      ∀ key data, dataFolder.isPrefixOf key = true → key ∉ marked → s.get key = some data → dryRun = false →
        walk.Ahead key
  | .done => ∀ key, dataFolder.isPrefixOf key = true → key ∉ marked → dryRun = false → s.get key = none
  | .failed _ => True

variable (env publicKey dryRun store) in
structure Invariant (s : Store) (c : Collector) : Prop where
  kept : ∀ key, s.get key = store.get key ∨ (Orphan env publicKey store key ∧ s.get key = none)
  marked : ∀ key ∈ c.marked, Referenced env publicKey store key
  stage : Stage env publicKey dryRun store s c.marked c.task

theorem start_invariant : Invariant env publicKey dryRun store store (start (some env)) where
  kept _ := Or.inl rfl
  marked _ member := nomatch member
  stage := ⟨rfl,trivial,fun _ _ _ _ _ => Or.inr (Or.inl rfl)⟩

theorem data_named {key : Bytes} (inside : dataFolder.isPrefixOf key = true) : key ≠ [] := by
  intro empty
  subst empty
  cases inside

theorem step_kept (step : Step env pageSize publicKey dryRun s c after next)
    (valid : Invariant env publicKey dryRun store s c) :
    ∀ key, after.get key = store.get key ∨ (Orphan env publicKey store key ∧ after.get key = none) := by
  rcases step_store step with rfl | ⟨object,rest,token,task,unmarked,wet,rfl⟩
  · exact valid.kept
  · intro key
    rw [Store.get_delete]
    split
    · rename_i same
      have stage := valid.stage
      rw [task] at stage
      obtain ⟨complete,inside,_⟩ := stage
      have folder := (inside_next inside).1
      refine Or.inr ⟨⟨same ▸ folder,?_⟩,rfl⟩
      intro referenced
      rw [same] at referenced
      exact unmarked (complete _ (data_named folder) referenced)
    · exact valid.kept key

theorem step_marked (step : Step env pageSize publicKey dryRun s c after next)
    (valid : Invariant env publicKey dryRun store s c) : ∀ key ∈ next.marked, Referenced env publicKey store key := by
  cases step with
  | load object info _ _ m task loaded =>
    have stage := valid.stage
    rw [task] at stage
    obtain ⟨rfl,inside,_⟩ := stage
    intro key member
    rcases (markAll_marked c m key).mp member with old | ⟨found,_⟩
    · exact valid.marked key old
    · exact ⟨object.key,m,info,(inside_next inside).1,loaded,names_iff.mpr found⟩
  | listManifests | loadFails | nextManifests | listData | keep | spare | delete | deleteFails | nextData | listBreaks
  | loadBreaks | deleteBreaks => exact valid.marked

theorem stage_visited (stage : Stage env publicKey dryRun store s marked (.data (.visit (object :: rest) token)))
    (seen : object.key ∈ marked ∨ dryRun = true ∨ after.get object.key = none)
    (keeps : ∀ key data, after.get key = some data → s.get key = some data) :
    Stage env publicKey dryRun store after marked (.data (.visit rest token)) := by
  obtain ⟨complete,inside,ahead⟩ := stage
  refine ⟨complete,(inside_next inside).2,?_⟩
  intro key data folder unmarked found wet
  rcases ahead_next (ahead key data folder unmarked (keeps key data found) wet) with same | later
  · subst same
    rcases seen with marked | dry | gone
    · exact absurd marked unmarked
    · rw [wet] at dry
      cases dry
    · rw [gone] at found
      cases found
  · exact later

theorem step_stage (sized : 0 < pageSize) (shown : ∀ key data, store.get key = some data → hidden key = false)
    (step : Step env pageSize publicKey dryRun s c after next) (valid : Invariant env publicKey dryRun store s c) :
    Stage env publicKey dryRun store after next.marked next.task := by
  have stage := valid.stage
  cases step with
  | listManifests _ task =>
    rw [task] at stage
    obtain ⟨rfl,_,ahead⟩ := stage
    refine ⟨rfl,fun object member => (list_member member).2,?_⟩
    intro name m info folder loaded
    obtain ⟨data,there⟩ := loaded_there loaded
    refine (ahead name m info folder loaded).imp id ?_
    exact list_ahead (by decide) sized there (shown name data there) folder
  | load _ _ _ _ m task loaded =>
    rw [task] at stage
    obtain ⟨rfl,inside,ahead⟩ := stage
    refine ⟨rfl,(inside_next inside).2,?_⟩
    intro name other found folder again
    have grows : ∀ key ∈ c.marked, key ∈ (markAll c m).marked :=
      fun key old => (markAll_marked c m key).mpr (Or.inl old)
    rcases ahead name other found folder again with known | ahead
    · exact Or.inl (fun key member some => grows key (known key member some))
    · rcases ahead_next ahead with rfl | later
      · left
        rw [again] at loaded
        cases loaded
        exact fun key member some => (markAll_marked c m key).mpr (Or.inr ⟨member,some⟩)
      · exact Or.inr later
  | nextManifests token task =>
    rw [task] at stage
    obtain ⟨rfl,_,ahead⟩ := stage
    change Stage _ _ _ _ _ c.marked (if token = [] then _ else _)
    split
    · rename_i last
      refine ⟨?_,trivial,fun _ _ _ _ _ _ => Or.inl rfl⟩
      rintro key some ⟨name,m,info,folder,loaded,member⟩
      rcases ahead name m info folder loaded with known | ahead
      · exact known key (names_iff.mp member) some
      · exact absurd last (ahead_page ahead).1
    · refine ⟨rfl,trivial,?_⟩
      intro name m info folder loaded
      exact (ahead name m info folder loaded).imp id (fun ahead => (ahead_page ahead).2)
  | listData _ task =>
    rw [task] at stage
    obtain ⟨complete,_,ahead⟩ := stage
    refine ⟨complete,fun object member => (list_member member).2,?_⟩
    intro key data folder unmarked there wet
    have original : store.get key = some data := by
      rcases valid.kept key with same | ⟨_,gone⟩
      · exact same ▸ there
      · rw [gone] at there
        cases there
    exact list_ahead (by decide) sized there (shown key data original) folder (ahead key data folder unmarked there wet)
  | keep _ _ _ task marked =>
    rw [task] at stage
    exact stage_visited stage (Or.inl marked) (fun _ _ found => found)
  | spare _ _ _ task _ dry =>
    rw [task] at stage
    exact stage_visited stage (Or.inr (Or.inl dry)) (fun _ _ found => found)
  | delete _ _ _ _ task _ _ removed =>
    rw [task] at stage
    obtain rfl := deleteObject_exact removed
    refine stage_visited stage (Or.inr (Or.inr ?_)) ?_
    · rw [Store.get_delete,if_pos rfl]
    · intro key data found
      rw [Store.get_delete] at found
      split at found
      · cases found
      · exact found
  | nextData token task =>
    rw [task] at stage
    obtain ⟨complete,_,ahead⟩ := stage
    change Stage _ _ _ _ _ c.marked (if token = [] then _ else _)
    split
    · rename_i last
      intro key folder unmarked wet
      cases there : s.get key with
      | none => rfl
      | some data => exact absurd last (ahead_page (ahead key data folder unmarked there wet)).1
    · exact ⟨complete,trivial,fun key data folder unmarked there wet =>
        (ahead_page (ahead key data folder unmarked there wet)).2⟩
  | loadFails | deleteFails | listBreaks | loadBreaks | deleteBreaks => trivial

theorem step_preserves (sized : 0 < pageSize) (shown : ∀ key data, store.get key = some data → hidden key = false)
    (step : Step env pageSize publicKey dryRun s c after next) (valid : Invariant env publicKey dryRun store s c) :
    Invariant env publicKey dryRun store after next :=
  ⟨step_kept step valid,step_marked step valid,step_stage sized shown step valid⟩

theorem reached_invariant (sized : 0 < pageSize) (shown : ∀ key data, store.get key = some data → hidden key = false)
    (reached : Reached env pageSize publicKey dryRun store s c) : Invariant env publicKey dryRun store s c := by
  induction reached with
  | start => exact start_invariant
  | step _ step ih => exact step_preserves sized shown step ih

-- What a listing has yet to do; a page takes at least one object with it.
def walkWeight (store : Store) (folder : Bytes) : Walk → Nat
  | .ask token => 3 * (matching store folder token).length + 3
  | .visit rest token => rest.length + 1 + if token = [] then 0 else 3 * (matching store folder token).length + 3

def weight (store : Store) : Task → Nat
  | .manifests walk => walkWeight store manifestFolder walk + (3 * store.objects.length + 4)
  | .data walk => walkWeight store dataFolder walk
  | .done => 0
  | .failed _ => 0

theorem page_lighter (sized : 0 < pageSize) (folder token : Bytes) :
    walkWeight store folder (.visit (list env pageSize store folder token).objects
      (list env pageSize store folder token).nextToken) < walkWeight store folder (.ask token) := by
  obtain ⟨less,filled⟩ := @list_left env pageSize store folder token sized
  simp only [walkWeight]
  split at less
  · rename_i last
    rw [if_pos last]
    omega
  · rename_i more
    have := filled more
    rw [if_neg more]
    omega

theorem turn_lighter (folder token : Bytes) :
    (if token = [] then 0 else walkWeight store folder (.ask token)) < walkWeight store folder (.visit [] token) := by
  simp only [walkWeight,List.length_nil]
  split <;> omega

theorem running_weighs (s : Store) (walk : Walk) : 0 < weight s (.manifests walk) ∧ 0 < weight s (.data walk) := by
  constructor
  · exact Nat.lt_of_lt_of_le (by omega) (Nat.le_add_left (3 * s.objects.length + 4) _)
  · change 0 < walkWeight s dataFolder walk
    cases walk with
    | ask | visit => simp only [walkWeight]; omega

theorem delete_lighter (folder gone : Bytes) (object : ObjectInfo) (rest : List ObjectInfo) (token : Bytes) :
    walkWeight (store.delete gone) folder (.visit rest token) < walkWeight store folder (.visit (object :: rest) token) := by
  have fewer := @matching_delete store folder token gone
  simp only [walkWeight,List.length_cons]
  split <;> omega

theorem step_lighter (sized : 0 < pageSize) (step : Step env pageSize publicKey dryRun s c after next) :
    weight after next.task < weight s c.task := by
  cases step with
  | listManifests _ task =>
    rw [task]
    exact Nat.add_lt_add_right (page_lighter sized _ _) _
  | load _ _ _ _ _ task | keep _ _ _ task | spare _ _ _ task =>
    rw [task]
    simp only [weight,walkWeight,List.length_cons]
    omega
  | nextManifests token task =>
    rw [task]
    have turn := @turn_lighter s manifestFolder token
    have fewer : (matching s dataFolder []).length ≤ s.objects.length := List.length_filter_le _ _
    change weight s (if token = [] then _ else _) < _
    split
    · simp only [weight,walkWeight]
      omega
    · rename_i more
      rw [if_neg more] at turn
      exact Nat.add_lt_add_right turn _
  | listData _ task =>
    rw [task]
    exact page_lighter sized _ _
  | delete _ _ _ _ task _ _ removed =>
    rw [task]
    obtain rfl := deleteObject_exact removed
    exact delete_lighter _ _ _ _ _
  | nextData token task =>
    rw [task]
    have turn := @turn_lighter s dataFolder token
    change weight s (if token = [] then _ else _) < _
    split
    · exact (running_weighs s _).2
    · rename_i more
      rw [if_neg more] at turn
      exact turn
  | loadFails _ _ _ _ task | loadBreaks _ _ _ _ task =>
    rw [task]
    exact (running_weighs s _).1
  | deleteFails _ _ _ _ task | deleteBreaks _ _ _ _ _ task =>
    rw [task]
    exact (running_weighs s _).2
  | listBreaks _ _ task =>
    rcases task with task | task
    · rw [task]
      exact (running_weighs s _).1
    · rw [task]
      exact (running_weighs s _).2

-- The step that is taken where no call of the backend fails.
variable (env pageSize publicKey dryRun) in
def advance (s : Store) (c : Collector) :
    PSum {next : Store × Collector // Step env pageSize publicKey dryRun s c next.1 next.2} (Ended c.task) :=
  match task : c.task with
  | .done => .inr (.inl rfl)
  | .failed fault => .inr (.inr ⟨fault,rfl⟩)
  | .manifests (.ask token) => .inl ⟨(_,_),.listManifests token task⟩
  | .manifests (.visit [] token) => .inl ⟨(_,_),.nextManifests token task⟩
  | .manifests (.visit (object :: rest) token) => match loaded : loadManifest env s object.key publicKey with
    | .error fault => .inl ⟨(_,_),.loadFails object rest token fault task loaded⟩
    | .ok (m,info) => .inl ⟨(_,_),.load object info rest token m task loaded⟩
  | .data (.ask token) => .inl ⟨(_,_),.listData token task⟩
  | .data (.visit [] token) => .inl ⟨(_,_),.nextData token task⟩
  | .data (.visit (object :: rest) token) =>
    if marked : object.key ∈ c.marked then .inl ⟨(_,_),.keep object rest token task marked⟩
    else if dry : dryRun = true then .inl ⟨(_,_),.spare object rest token task marked dry⟩
    else match removed : deleteObject env object.key s with
      | .error fault => .inl ⟨(_,_),.deleteFails object rest token fault task marked (eq_false_of_ne_true dry) removed⟩
      | .ok after => .inl ⟨(_,_),.delete object rest token after task marked (eq_false_of_ne_true dry) removed⟩

theorem collector_moves (s : Store) (c : Collector) :
    Ended c.task ∨ ∃ after next, Step env pageSize publicKey dryRun s c after next :=
  match advance env pageSize publicKey dryRun s c with
  | .inl next => .inr ⟨_,_,next.2⟩
  | .inr ended => .inl ended

variable (env pageSize publicKey dryRun) in
def advanceBy : Nat → Store × Collector → Store × Collector
  | 0,s => s
  | turns+1,s => match advance env pageSize publicKey dryRun s.1 s.2 with
    | .inl next => advanceBy turns next.1
    | .inr _ => s

theorem advanceBy_reached (turns : Nat) (reached : Reached env pageSize publicKey dryRun store s c) :
    Reached env pageSize publicKey dryRun store (advanceBy env pageSize publicKey dryRun turns (s,c)).1
      (advanceBy env pageSize publicKey dryRun turns (s,c)).2 := by
  induction turns generalizing s c with
  | zero => exact reached
  | succ _ ih =>
    rw [advanceBy]
    split
    · rename_i next _
      exact ih (reached.step next.2)
    · exact reached

variable (env pageSize publicKey dryRun) in
def Moves (s next : Store × Collector) : Prop := Step env pageSize publicKey dryRun s.1 s.2 next.1 next.2

theorem collection_ends (sized : 0 < pageSize) (store : Store) : Inevitable (Moves env pageSize publicKey dryRun)
    (fun s => Ended s.2.task) (store,start (some env)) := by
  refine by_weight (fun s => weight s.1 s.2.task) (fun _ => True) ?_ (fun _ _ _ _ => trivial) ?_ trivial
  · intro s next _ step
    exact step_lighter sized step
  · intro s _
    exact (@collector_moves env pageSize publicKey dryRun s.1 s.2).imp id
      (fun ⟨after,next,step⟩ => ⟨(after,next),step⟩)

theorem manifest_apart {name : Bytes} (folder : manifestFolder.isPrefixOf name = true) :
    dataFolder.isPrefixOf name = false := by
  match name with
  | [] => rfl
  | b :: rest =>
    have head : (109 : UInt8) = b := by
      have split : (109 == b && (ascii "anifests/").isPrefixOf rest) = true := folder
      simpa using (Bool.and_eq_true_iff.mp split).1
    subst head
    rfl

theorem referenced_kept (same : ∀ name, manifestFolder.isPrefixOf name = true → s.get name = after.get name)
    (referenced : Referenced env publicKey s key) : Referenced env publicKey after key := by
  obtain ⟨name,m,info,folder,loaded,member⟩ := referenced
  exact ⟨name,m,info,folder,ManifestLoad.load_same (same name folder) publicKey ▸ loaded,member⟩

-- A collection that has the repository to itself comes to an end. It deletes
-- orphans only, all of them when it ends without an error, and nothing as long as
-- it is at the manifests; another collection after it deletes nothing.
theorem collection_exact (sized : 0 < pageSize) (shown : ∀ key data, store.get key = some data → hidden key = false) :
    Inevitable (Moves env pageSize publicKey dryRun) (fun s => Ended s.2.task) (store,start (some env)) ∧
      ∀ s c, Reached env pageSize publicKey dryRun store s c →
        (∀ key, ¬ Orphan env publicKey store key → s.get key = store.get key) ∧
        (Marking c.task → ∀ after next, Step env pageSize publicKey dryRun s c after next → after = store) ∧
        (c.task = .done → dryRun = false →
          (∀ key, Orphan env publicKey store key → s.get key = none) ∧
          ∀ after last, Reached env pageSize publicKey dryRun s after last → ∀ key, after.get key = s.get key) := by
  refine ⟨collection_ends sized store,?_⟩
  intro s c reached
  have valid := reached_invariant sized shown reached
  have stage := valid.stage
  have kept : ∀ key, ¬ Orphan env publicKey store key → s.get key = store.get key := by
    intro key spared
    exact (valid.kept key).resolve_right (fun gone => spared gone.1)
  refine ⟨kept,?_,?_⟩
  · rintro ⟨_,task⟩ after _ step
    rw [task] at stage
    rcases step_store step with same | ⟨_,_,_,other,_⟩
    · exact same.trans stage.1
    · rw [task] at other
      cases other
  · intro done wet
    rw [done] at stage
    have gone : ∀ key, Orphan env publicKey store key → s.get key = none := by
      intro key orphan
      exact stage key orphan.1 (fun marked => orphan.2 (valid.marked key marked)) wet
    -- Manifests are not deleted, so they refer to the same chunks as before.
    have manifests : ∀ name, manifestFolder.isPrefixOf name = true → store.get name = s.get name := by
      intro name folder
      refine (kept name fun orphan => ?_).symm
      cases (manifest_apart folder).symm.trans orphan.1
    refine ⟨gone,?_⟩
    intro after last again key
    have shownLater : ∀ key data, s.get key = some data → hidden key = false := by
      intro key data found
      rcases valid.kept key with same | ⟨_,none⟩
      · exact shown key data (same ▸ found)
      · rw [none] at found
        cases found
    rcases (reached_invariant sized shownLater again).kept key with same | ⟨orphan,none⟩
    · exact same
    · rw [none,gone key ⟨orphan.1,fun referenced => orphan.2 (referenced_kept manifests referenced)⟩]

end

section
open ManifestLoad

-- A committed backup whose chunks are one object, and an object that none names.
def strayStore : Store :=
  ((Store.empty.put (manifestKey noon noon (ascii "b1")) (stored plainEnvironment twoBytes (optionsFor (ascii "db")))).put
    (ascii "data/07") [7]).put (ascii "data/ab") [1]

theorem stray_names (found : strayStore.get key = some data) :
    key ∈ [manifestKey noon noon (ascii "b1"),ascii "data/07",ascii "data/ab"] := by
  rw [strayStore,Store.get_put,Store.get_put,Store.get_put] at found
  split at found
  · simp [*]
  · split at found
    · simp [*]
    · split at found
      · simp [*]
      · cases found

theorem stray_orphan : Orphan plainEnvironment signer strayStore (ascii "data/ab") := by
  refine ⟨by decide,?_⟩
  rintro ⟨name,m,info,folder,loaded,names⟩
  obtain ⟨_,found⟩ := loaded_there loaded
  have only : name = manifestKey noon noon (ascii "b1") := by
    have known := stray_names found
    simp only [List.mem_cons,List.not_mem_nil,or_false] at known
    rcases known with rfl | rfl | rfl
    · rfl
    · cases folder
    · cases folder
  have named : (loadManifest plainEnvironment strayStore (manifestKey noon noon (ascii "b1")) signer).toOption.all
      (fun read => ascii "data/ab" ∉ keys read.1) = true := by decide +kernel
  rw [← only,loaded] at named
  exact of_decide_eq_true named (names_iff.mp names)

theorem stray_collected : ∃ s c, Reached plainEnvironment 1 signer false strayStore s c ∧ c.task = .done ∧
    Orphan plainEnvironment signer strayStore (ascii "data/ab") ∧ s.get (ascii "data/ab") = none ∧
      s.get (ascii "data/07") = some [7] := by
  have shown : ∀ key data, strayStore.get key = some data → hidden key = false := by
    intro key data found
    exact (by decide +kernel : ∀ key ∈ [manifestKey noon noon (ascii "b1"),ascii "data/07",ascii "data/ab"],
      hidden key = false) key (stray_names found)
  have reached := @advanceBy_reached plainEnvironment 1 signer false strayStore _ _ 12 .start
  have done : (advanceBy plainEnvironment 1 signer false 12 (strayStore,start (some plainEnvironment))).2.task = .done := by
    decide +kernel
  obtain ⟨_,_,ended⟩ := (collection_exact (by decide) shown).2 _ _ reached
  exact ⟨_,_,reached,done,stray_orphan,(ended done rfl).1 _ stray_orphan,by decide +kernel⟩

end

end Kronos.GarbageCollect
