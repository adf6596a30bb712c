import Mathlib.Data.List.Chain
import Mathlib.Logic.Function.Basic

/-!
# The local xids that a distributed snapshot caches (`cdbdistributedsnapshot.c`)

On a segment, `DistributedSnapshotWithLocalMapping_CommittedTest` decides whether a local xid is
in progress for a distributed snapshot. It maps the local xid to its distributed xid, through the
process-local cache of committed mappings and then the distributed log, and tests the distributed
xid against the snapshot. A local xid whose distributed xid it finds in progress is remembered in
the snapshot's own cache (`inProgressMappedLocalXids`, between `minCachedLocalXid` and
`maxCachedLocalXid`), which the next calls consult first, by wrap-around comparisons.

`statelessCommitted` is the answer without the snapshot's cache, computed from the mapping `M` as
it is at the call. The snapshot's cache never changes an answer: a local xid enters it only when
its distributed xid is in progress, and the cached bounds are cached xids, so a hit in the cache is
an answer that the mapping, which only grows, still gives; a miss falls through to the full test.

* `inProgressScan_eq`: the scan of `inProgressXidArray`, which stops at the first larger xid, is
  membership when the array is sorted;
* `committedTest_spec`: one call gives the stateless answer and keeps the cache's invariant;
* `committedTestRun_eq_stateless`: from an empty cache, every call of any sequence gives the
  stateless answer under the mapping of its time.
-/

namespace Cloudberry.Cdb

/-- `TransactionId`: a local 32-bit xid. -/
abbrev TransactionId := UInt32

/-- `DistributedTransactionId`: a 64-bit distributed xid. -/
abbrev DistributedTransactionId := UInt64

/-- `InvalidTransactionId`. -/
def invalidTransactionId : TransactionId := 0

/-- `FirstNormalTransactionId`. -/
def firstNormalTransactionId : TransactionId := 3

/-- `TransactionIdIsValid`. -/
def transactionIdIsValid (xid : TransactionId) : Bool := xid != invalidTransactionId

/-- `TransactionIdIsNormal`. -/
def transactionIdIsNormal (xid : TransactionId) : Bool := xid ≥ firstNormalTransactionId

/-- `TransactionIdPrecedes`: unsigned order if either xid is permanent, and otherwise the order
modulo `2^32`, by the sign of the difference as an `int32`. -/
def transactionIdPrecedes (id1 id2 : TransactionId) : Bool :=
  if !transactionIdIsNormal id1 || !transactionIdIsNormal id2 then id1 < id2
  else (id1 - id2).toInt32 < 0

/-- `TransactionIdFollows`. -/
def transactionIdFollows (id1 id2 : TransactionId) : Bool :=
  if !transactionIdIsNormal id1 || !transactionIdIsNormal id2 then id1 > id2
  else (id1 - id2).toInt32 > 0

/-- `DistributedSnapshotCommitted`. -/
inductive DistributedSnapshotCommitted
  | none
  | inProgress
  | visible
  | unknown
  | ignore
  deriving DecidableEq, Repr

/-- `DistributedSnapshot`: the fields the test reads; `count` is the length of
`inProgressXidArray`. -/
structure DistributedSnapshot where
  xminAllDistributedSnapshots : DistributedTransactionId
  xmin : DistributedTransactionId
  xmax : DistributedTransactionId
  inProgressXidArray : List DistributedTransactionId
  deriving DecidableEq, Repr

/-- `ds->count`. -/
def DistributedSnapshot.count (ds : DistributedSnapshot) : ℕ := ds.inProgressXidArray.length

/-- `DistributedSnapshotWithLocalMapping`: the snapshot and its cache of local xids in progress;
`currentLocalXidsCount` is the length of `inProgressMappedLocalXids`. -/
structure DistributedSnapshotWithLocalMapping where
  ds : DistributedSnapshot
  minCachedLocalXid : TransactionId
  maxCachedLocalXid : TransactionId
  inProgressMappedLocalXids : List TransactionId
  deriving DecidableEq, Repr

/-- The mappings of committed local xids that the test reads: the process-local cache
(`LocalDistribXactCache`) and the distributed log. -/
structure CommitEnv where
  localCache : TransactionId → Option DistributedTransactionId
  distributedLog : TransactionId → Option DistributedTransactionId

namespace CommitEnv

/-- `LocalDistribXactCache_CommittedFind`, then `DistributedLog_CommittedCheck`, whose mapping
`LocalDistribXactCache_AddCommitted` adds to the process-local cache. -/
def committedFind (env : CommitEnv) (localXid : TransactionId) :
    Option (DistributedTransactionId × CommitEnv) :=
  match env.localCache localXid with
  | some distribXid => some (distribXid, env)
  | none =>
    match env.distributedLog localXid with
    | some distribXid =>
      some (distribXid, { env with
        localCache := Function.update env.localCache localXid (some distribXid) })
    | none => none

/-- The mapping the test sees: the process-local cache first, then the distributed log. -/
def mapping (env : CommitEnv) (localXid : TransactionId) : Option DistributedTransactionId :=
  (env.localCache localXid).orElse fun _ => env.distributedLog localXid

end CommitEnv

namespace DistributedSnapshotWithLocalMapping

/-- A snapshot whose cache is empty: no local xid, and invalid bounds. -/
def init (ds : DistributedSnapshot) : DistributedSnapshotWithLocalMapping :=
  ⟨ds, invalidTransactionId, invalidTransactionId, []⟩

/-- `dslm->currentLocalXidsCount`. -/
def currentLocalXidsCount (dslm : DistributedSnapshotWithLocalMapping) : ℕ :=
  dslm.inProgressMappedLocalXids.length

/-- The scan of the cache at the start of the test: the cached bounds, then, for a local xid
strictly between them, the cached local xids. -/
def cachedInProgress (dslm : DistributedSnapshotWithLocalMapping) (localXid : TransactionId) :
    Bool :=
  dslm.currentLocalXidsCount > 0 &&
    (localXid == dslm.minCachedLocalXid || localXid == dslm.maxCachedLocalXid ||
      (transactionIdFollows localXid dslm.minCachedLocalXid &&
        transactionIdPrecedes localXid dslm.maxCachedLocalXid &&
        dslm.inProgressMappedLocalXids.contains localXid))

/-- Remember a local xid in progress, while there is room for `ds->count` of them. -/
def cacheLocalXid (dslm : DistributedSnapshotWithLocalMapping) (localXid : TransactionId) :
    DistributedSnapshotWithLocalMapping :=
  if dslm.currentLocalXidsCount < dslm.ds.count then
    { dslm with
      inProgressMappedLocalXids := dslm.inProgressMappedLocalXids ++ [localXid]
      minCachedLocalXid :=
        if !transactionIdIsValid dslm.minCachedLocalXid ||
            transactionIdPrecedes localXid dslm.minCachedLocalXid then localXid
        else dslm.minCachedLocalXid
      maxCachedLocalXid :=
        if !transactionIdIsValid dslm.maxCachedLocalXid ||
            transactionIdFollows localXid dslm.maxCachedLocalXid then localXid
        else dslm.maxCachedLocalXid }
  else dslm

end DistributedSnapshotWithLocalMapping

/-- The loop over `inProgressXidArray`: found, or stopped at the first larger xid, which the
array being sorted makes the last chance. -/
def inProgressScan (distribXid : DistributedTransactionId) : List DistributedTransactionId → Bool
  | [] => false
  | xid :: rest =>
    if distribXid = xid then true
    else if distribXid < xid then false
    else inProgressScan distribXid rest

namespace DistributedSnapshotWithLocalMapping

/-- The test of a distributed xid found for `localXid`, against the snapshot. -/
def committedTestDistrib (dslm : DistributedSnapshotWithLocalMapping) (localXid : TransactionId)
    (isVacuumCheck : Bool) (distribXid : DistributedTransactionId) :
    DistributedSnapshotCommitted × DistributedSnapshotWithLocalMapping :=
  if distribXid < dslm.ds.xminAllDistributedSnapshots then (.ignore, dslm)
  else if isVacuumCheck then (.inProgress, dslm)
  else if distribXid < dslm.ds.xmin then (.visible, dslm)
  else if distribXid ≥ dslm.ds.xmax then (.inProgress, dslm)
  else if inProgressScan distribXid dslm.ds.inProgressXidArray then
    (.inProgress, dslm.cacheLocalXid localXid)
  else (.visible, dslm)

/-- `DistributedSnapshotWithLocalMapping_CommittedTest`: the answer, the snapshot with its cache
after the call, and the mappings after it. -/
def committedTest (dslm : DistributedSnapshotWithLocalMapping) (env : CommitEnv)
    (localXid : TransactionId) (isVacuumCheck : Bool) :
    DistributedSnapshotCommitted × DistributedSnapshotWithLocalMapping × CommitEnv :=
  if !transactionIdIsNormal localXid then (.ignore, dslm, env)
  else if dslm.cachedInProgress localXid then (.inProgress, dslm, env)
  else
    match env.committedFind localXid with
    | none => (.unknown, dslm, env)
    | some (distribXid, env') =>
      let r := dslm.committedTestDistrib localXid isVacuumCheck distribXid
      (r.1, r.2, env')

end DistributedSnapshotWithLocalMapping

/-- A call of the test: the local xid, whether it is for vacuum, and the mappings at its time.
The process-local cache is shared by the process, which fills it from other calls too and evicts
from it, so each call reads the mappings as they are then. -/
structure CommittedTestCall where
  localXid : TransactionId
  isVacuumCheck : Bool
  env : CommitEnv

/-- The answers of a sequence of calls on one snapshot, each call on the cache the last one
left. -/
def committedTestRun :
    DistributedSnapshotWithLocalMapping → List CommittedTestCall → List DistributedSnapshotCommitted
  | _, [] => []
  | dslm, call :: calls =>
    let r := dslm.committedTest call.env call.localXid call.isVacuumCheck
    r.1 :: committedTestRun r.2.1 calls

/-! ## The answer without the snapshot's cache -/

/-- The answer from the mapping `M` alone. -/
def statelessCommitted (ds : DistributedSnapshot) (M : TransactionId → Option DistributedTransactionId)
    (localXid : TransactionId) (isVacuumCheck : Bool) : DistributedSnapshotCommitted :=
  if !transactionIdIsNormal localXid then .ignore
  else
    match M localXid with
    | none => .unknown
    | some distribXid =>
      if distribXid < ds.xminAllDistributedSnapshots then .ignore
      else if isVacuumCheck then .inProgress
      else if distribXid < ds.xmin then .visible
      else if ds.xmax ≤ distribXid ∨ distribXid ∈ ds.inProgressXidArray then .inProgress
      else .visible

/-- A mapping extends another when it keeps each of its entries. -/
def Extends (M M' : TransactionId → Option DistributedTransactionId) : Prop :=
  ∀ x d, M x = some d → M' x = some d

@[simp] theorem Extends.refl (M : TransactionId → Option DistributedTransactionId) : Extends M M :=
  fun _ _ h => h

/-! ## The scan of the in-progress array -/

/-- **The scan that stops at the first larger xid is membership**, on a sorted array. -/
theorem inProgressScan_eq (distribXid : DistributedTransactionId) :
    ∀ {arr : List DistributedTransactionId}, arr.Pairwise (· ≤ ·) →
      inProgressScan distribXid arr = decide (distribXid ∈ arr)
  | [], _ => rfl
  | xid :: rest, hsorted => by
    rw [List.pairwise_cons] at hsorted
    rw [inProgressScan]
    split_ifs with heq hlt
    · simp [heq]
    · -- the xids after `xid` are at least `xid`, so above `distribXid`
      have hnot : distribXid ∉ xid :: rest := by
        rw [List.mem_cons, not_or]
        refine ⟨heq, fun hmem => ?_⟩
        have hle := UInt64.le_iff_toNat_le.mp (hsorted.1 distribXid hmem)
        have hlt' := UInt64.lt_iff_toNat_lt.mp hlt
        omega
      simp [hnot]
    · rw [inProgressScan_eq distribXid hsorted.2]
      simp [heq]

/-! ## The mappings -/

namespace CommitEnv

/-- The lookup finds the mapping, and the mapping it adds to the process-local cache is one the
distributed log has, so the mapping stays as it was. -/
theorem committedFind_spec (env : CommitEnv) (localXid : TransactionId) :
    (env.committedFind localXid).map Prod.fst = env.mapping localXid ∧
      ∀ p ∈ env.committedFind localXid, p.2.mapping = env.mapping := by
  unfold committedFind mapping
  cases hcache : env.localCache localXid with
  | some distribXid => simp
  | none =>
    cases hlog : env.distributedLog localXid with
    | none => simp
    | some distribXid =>
      refine ⟨by simp, ?_⟩
      simp only [Option.mem_def, Option.some.injEq, forall_eq']
      funext y
      by_cases hy : y = localXid
      · subst hy
        simp [hcache, hlog]
      · simp [Function.update_of_ne hy]

end CommitEnv

/-! ## The invariant of the snapshot's cache -/

/-- The test finds the distributed xid `d` in progress in `ds`. -/
def InProgressIn (ds : DistributedSnapshot) (d : DistributedTransactionId) : Prop :=
  ds.xminAllDistributedSnapshots ≤ d ∧ ds.xmin ≤ d ∧ d < ds.xmax ∧ d ∈ ds.inProgressXidArray

/-- A normal local xid mapped to a distributed xid in progress is in progress, for vacuum too. -/
theorem statelessCommitted_of_inProgressIn {ds : DistributedSnapshot}
    {M : TransactionId → Option DistributedTransactionId} {localXid : TransactionId}
    {d : DistributedTransactionId} (hnormal : transactionIdIsNormal localXid)
    (hM : M localXid = some d) (hd : InProgressIn ds d) (isVacuumCheck : Bool) :
    statelessCommitted ds M localXid isVacuumCheck = .inProgress := by
  obtain ⟨hall, hmin, _, hmem⟩ := hd
  have hall' : ¬ d < ds.xminAllDistributedSnapshots := UInt64.not_lt.mpr hall
  have hmin' : ¬ d < ds.xmin := UInt64.not_lt.mpr hmin
  cases isVacuumCheck <;> simp [statelessCommitted, hnormal, hM, hall', hmin', hmem]

/-- What the snapshot's cache holds under the mapping `M`: it is the cache of `ds`; each cached
local xid is normal and mapped to a distributed xid in progress; and each cached bound is a cached
local xid, or invalid while there is none. -/
structure CacheInv (ds : DistributedSnapshot) (M : TransactionId → Option DistributedTransactionId)
    (dslm : DistributedSnapshotWithLocalMapping) : Prop where
  ds_eq : dslm.ds = ds
  cached : ∀ y ∈ dslm.inProgressMappedLocalXids,
    transactionIdIsNormal y ∧ ∃ d, M y = some d ∧ InProgressIn ds d
  min_mem : dslm.minCachedLocalXid ∈ dslm.inProgressMappedLocalXids ∨
    dslm.inProgressMappedLocalXids = [] ∧ dslm.minCachedLocalXid = invalidTransactionId
  max_mem : dslm.maxCachedLocalXid ∈ dslm.inProgressMappedLocalXids ∨
    dslm.inProgressMappedLocalXids = [] ∧ dslm.maxCachedLocalXid = invalidTransactionId

namespace CacheInv

variable {ds : DistributedSnapshot} {M : TransactionId → Option DistributedTransactionId}
  {dslm : DistributedSnapshotWithLocalMapping}

theorem init (ds : DistributedSnapshot) (M : TransactionId → Option DistributedTransactionId) :
    CacheInv ds M (DistributedSnapshotWithLocalMapping.init ds) :=
  ⟨rfl, fun _ h => absurd h List.not_mem_nil, .inr ⟨rfl, rfl⟩, .inr ⟨rfl, rfl⟩⟩

/-- A mapping that keeps the entries of `M` keeps the invariant. -/
theorem mono (h : CacheInv ds M dslm) {M' : TransactionId → Option DistributedTransactionId}
    (hext : Extends M M') : CacheInv ds M' dslm where
  ds_eq := h.ds_eq
  cached y hy := by
    obtain ⟨hnormal, d, hM, hd⟩ := h.cached y hy
    exact ⟨hnormal, d, hext y d hM, hd⟩
  min_mem := h.min_mem
  max_mem := h.max_mem

/-- A hit in the cache is a cached local xid: the bounds are cached xids once there is one. -/
theorem mem_of_cachedInProgress (h : CacheInv ds M dslm) {localXid : TransactionId}
    (hhit : dslm.cachedInProgress localXid) : localXid ∈ dslm.inProgressMappedLocalXids := by
  simp only [DistributedSnapshotWithLocalMapping.cachedInProgress, Bool.and_eq_true,
    Bool.or_eq_true, beq_iff_eq, List.contains_iff_mem, decide_eq_true_eq] at hhit
  obtain ⟨hcount, (hmin | hmax) | ⟨-, hmem⟩⟩ := hhit
  · have hne : dslm.inProgressMappedLocalXids ≠ [] := List.ne_nil_of_length_pos hcount
    rw [hmin]
    exact h.min_mem.resolve_right fun h' => hne h'.1
  · have hne : dslm.inProgressMappedLocalXids ≠ [] := List.ne_nil_of_length_pos hcount
    rw [hmax]
    exact h.max_mem.resolve_right fun h' => hne h'.1
  · exact hmem

/-- A new bound is the new xid or the old bound, which is cached or invalid. -/
theorem bound_mem {L : List TransactionId} {bound localXid : TransactionId} {p : Bool}
    (hbound : bound ∈ L ∨ L = [] ∧ bound = invalidTransactionId) :
    (if !transactionIdIsValid bound || p then localXid else bound) ∈ L ++ [localXid] := by
  rcases hbound with hmem | ⟨-, rfl⟩
  · split_ifs
    · exact List.mem_append_right _ (List.mem_singleton_self _)
    · exact List.mem_append_left _ hmem
  · simp [transactionIdIsValid, invalidTransactionId]

/-- Caching a normal local xid mapped to a distributed xid in progress keeps the invariant. -/
theorem cacheLocalXid (h : CacheInv ds M dslm) {localXid : TransactionId}
    {d : DistributedTransactionId} (hnormal : transactionIdIsNormal localXid)
    (hM : M localXid = some d) (hd : InProgressIn ds d) :
    CacheInv ds M (dslm.cacheLocalXid localXid) := by
  unfold DistributedSnapshotWithLocalMapping.cacheLocalXid
  by_cases hroom : dslm.currentLocalXidsCount < dslm.ds.count
  · rw [if_pos hroom]
    refine ⟨h.ds_eq, fun y hy => ?_, .inl (bound_mem h.min_mem), .inl (bound_mem h.max_mem)⟩
    rcases List.mem_append.mp hy with hy | hy
    · exact h.cached y hy
    · rw [List.mem_singleton.mp hy]
      exact ⟨hnormal, d, hM, hd⟩
  · rw [if_neg hroom]
    exact h

end CacheInv

/-! ## One call -/

namespace DistributedSnapshotWithLocalMapping

variable {ds : DistributedSnapshot} {M : TransactionId → Option DistributedTransactionId}
  {dslm : DistributedSnapshotWithLocalMapping}

/-- The test of the distributed xid found gives the stateless answer, and caches only a local xid
in progress. -/
theorem committedTestDistrib_spec (hsorted : ds.inProgressXidArray.Pairwise (· ≤ ·))
    (h : CacheInv ds M dslm) {localXid : TransactionId} (hnormal : transactionIdIsNormal localXid)
    {distribXid : DistributedTransactionId} (hM : M localXid = some distribXid)
    (isVacuumCheck : Bool) :
    (dslm.committedTestDistrib localXid isVacuumCheck distribXid).1 =
        statelessCommitted ds M localXid isVacuumCheck ∧
      CacheInv ds M (dslm.committedTestDistrib localXid isVacuumCheck distribXid).2 := by
  have hds := h.ds_eq
  unfold committedTestDistrib statelessCommitted
  rw [hds, inProgressScan_eq distribXid hsorted]
  simp only [hnormal, Bool.not_true, Bool.false_eq_true, if_false, hM]
  -- the tests in the order of the source; only the last one but one caches
  by_cases hall : distribXid < ds.xminAllDistributedSnapshots
  · simp only [if_pos hall]
    exact ⟨trivial, h⟩
  by_cases hvac : isVacuumCheck = true
  · simp only [if_neg hall, if_pos hvac]
    exact ⟨trivial, h⟩
  by_cases hmin : distribXid < ds.xmin
  · simp only [if_neg hall, if_neg hvac, if_pos hmin]
    exact ⟨trivial, h⟩
  by_cases hmax : distribXid ≥ ds.xmax
  · simp only [if_neg hall, if_neg hvac, if_neg hmin, if_pos hmax, if_pos (Or.inl hmax)]
    exact ⟨trivial, h⟩
  by_cases hmem : distribXid ∈ ds.inProgressXidArray
  · simp only [if_neg hall, if_neg hvac, if_neg hmin, if_neg hmax, decide_eq_true hmem, if_true,
      if_pos (Or.inr hmem)]
    exact ⟨trivial, h.cacheLocalXid hnormal hM
      ⟨UInt64.not_lt.mp hall, UInt64.not_lt.mp hmin, UInt64.not_le.mp hmax, hmem⟩⟩
  · have hnot : ¬ (ds.xmax ≤ distribXid ∨ distribXid ∈ ds.inProgressXidArray) := by
      rintro (h' | h')
      · exact hmax h'
      · exact hmem h'
    simp only [if_neg hall, if_neg hvac, if_neg hmin, if_neg hmax, decide_eq_false hmem,
      Bool.false_eq_true, if_false, if_neg hnot]
    exact ⟨trivial, h⟩


/-- **One call gives the stateless answer** under the mapping it reads, and keeps the cache's
invariant: a hit in the cache is a cached local xid, in progress under the mapping, and a miss is
the full test. -/
theorem committedTest_spec (hsorted : ds.inProgressXidArray.Pairwise (· ≤ ·)) {env : CommitEnv}
    (h : CacheInv ds env.mapping dslm) (localXid : TransactionId) (isVacuumCheck : Bool) :
    (dslm.committedTest env localXid isVacuumCheck).1 =
        statelessCommitted ds env.mapping localXid isVacuumCheck ∧
      CacheInv ds env.mapping (dslm.committedTest env localXid isVacuumCheck).2.1 := by
  unfold committedTest
  by_cases hnormal : transactionIdIsNormal localXid = true
  swap
  · simp only [hnormal, statelessCommitted, Bool.not_false, if_true]
    exact ⟨trivial, h⟩
  by_cases hhit : dslm.cachedInProgress localXid = true
  · obtain ⟨-, d, hM, hd⟩ := h.cached localXid (h.mem_of_cachedInProgress hhit)
    simp only [hnormal, hhit, Bool.not_true, Bool.false_eq_true, if_false, if_true]
    exact ⟨(statelessCommitted_of_inProgressIn hnormal hM hd isVacuumCheck).symm, h⟩
  · have hfind := (env.committedFind_spec localXid).1
    simp only [hnormal, hhit, Bool.not_true, Bool.false_eq_true, if_false]
    cases hres : env.committedFind localXid with
    | none =>
      have hM : env.mapping localXid = none := by rw [← hfind, hres, Option.map_none]
      simp only [statelessCommitted, hnormal, hM, Bool.not_true, Bool.false_eq_true, if_false]
      exact ⟨trivial, h⟩
    | some p =>
      obtain ⟨distribXid, env'⟩ := p
      have hM : env.mapping localXid = some distribXid := by rw [← hfind, hres, Option.map_some]
      exact committedTestDistrib_spec hsorted h hnormal hM isVacuumCheck

end DistributedSnapshotWithLocalMapping

/-! ## Sequences of calls -/

section Run

variable {ds : DistributedSnapshot}

/-- Along calls whose mappings only grow, each call gives the stateless answer: the invariant
under the mapping of one call holds under the mapping of the next. -/
theorem committedTestRun_eq (hsorted : ds.inProgressXidArray.Pairwise (· ≤ ·)) :
    ∀ (call : CommittedTestCall) (calls : List CommittedTestCall)
      (dslm : DistributedSnapshotWithLocalMapping),
      (call :: calls).IsChain (fun a b => Extends a.env.mapping b.env.mapping) →
      CacheInv ds call.env.mapping dslm →
      committedTestRun dslm (call :: calls) = (call :: calls).map fun c =>
        statelessCommitted ds c.env.mapping c.localXid c.isVacuumCheck
  | call, [], dslm, _, h => by
    rw [committedTestRun, committedTestRun, List.map_singleton,
      (dslm.committedTest_spec hsorted h call.localXid call.isVacuumCheck).1]
  | call, next :: calls, dslm, hchain, h => by
    obtain ⟨hans, h'⟩ := dslm.committedTest_spec hsorted h call.localXid call.isVacuumCheck
    rw [List.isChain_cons_cons] at hchain
    rw [committedTestRun, List.map_cons, hans,
      committedTestRun_eq hsorted next calls _ hchain.2 (h'.mono hchain.1)]

/-- **The snapshot's cache never changes an answer.** On a snapshot whose in-progress array is
sorted, from an empty cache, each call of any sequence whose mappings only grow gives the answer
that the mapping of its time gives without the cache. -/
theorem committedTestRun_eq_stateless (ds : DistributedSnapshot)
    (hsorted : ds.inProgressXidArray.Pairwise (· ≤ ·)) (calls : List CommittedTestCall)
    (hmono : calls.IsChain fun a b => Extends a.env.mapping b.env.mapping) :
    committedTestRun (DistributedSnapshotWithLocalMapping.init ds) calls =
      calls.map fun call => statelessCommitted ds call.env.mapping call.localXid call.isVacuumCheck := by
  cases calls with
  | nil => rfl
  | cons call calls =>
    exact committedTestRun_eq hsorted call calls _ hmono (CacheInv.init ds _)

theorem committedTestRun_eq_stateless_repeat :
    committedTestRun (DistributedSnapshotWithLocalMapping.init ⟨10, 20, 40, [25, 30]⟩)
        [⟨100, false, ⟨fun _ => none, fun x => if x = 100 then some 25 else none⟩⟩,
          ⟨100, true, ⟨fun _ => none, fun x => if x = 100 then some 25 else none⟩⟩,
          ⟨7, false, ⟨fun _ => none, fun x => if x = 100 then some 25 else none⟩⟩] =
      [.inProgress, .inProgress, .unknown] := by
  rw [committedTestRun_eq_stateless _ (by decide) _ ?_]
  · decide
  · exact List.isChain_cons_cons.mpr ⟨Extends.refl _,
      List.isChain_cons_cons.mpr ⟨Extends.refl _, List.isChain_singleton _⟩⟩

end Run

end Cloudberry.Cdb
