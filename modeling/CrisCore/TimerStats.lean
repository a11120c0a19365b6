import CrisCore.ListSums
import Mathlib.Algebra.BigOperators.Pi
import Mathlib.Algebra.Group.Pi.Basic
import Mathlib.Logic.Function.Iterate

/-! The statistics of `timer_enable.cc`: the entries of a `TimerStatCollector`, its `Report`, `Merge`
and `UnsafeClear`. Counts and sums of durations are taken without overflow. -/
namespace CrisCore.Timer

def kTimerEntryBucketNum : ℕ := 32

/-- `TimerSection::kMaxCapacity`. -/
def kCollectorSize : ℕ := 8192

def kEmptyCollectorIndex : ℕ := 0

/-- 10 us. -/
def baseNsec : ℤ := 10000

/-- The upper (exclusive) limit of a bucket; the last one covers everything. -/
def upperNsecOfBucket (idx : ℕ) : ℤ :=
  if kTimerEntryBucketNum - 1 ≤ idx then 2 ^ 63 - 1 else (fun result => result * 2)^[idx] baseNsec

example : upperNsecOfBucket 4 = 160000 := by decide

abbrev Bucket := Fin kTimerEntryBucketNum

/-- The linear scan of `Report`: the first bucket with a limit above the duration, otherwise the
last one looked at. -/
def bucketIdx (duration : ℤ) : Bucket :=
  ((List.finRange kTimerEntryBucketNum).find? fun i : Bucket =>
    duration < upperNsecOfBucket i.val).getD ⟨kTimerEntryBucketNum - 1, by decide⟩

@[ext] structure TimerStatEntryBucket where
  hits : ℕ := 0
  totalDurationNs : ℕ := 0
  deriving DecidableEq

namespace TimerStatEntryBucket

def merge (b another : TimerStatEntryBucket) : TimerStatEntryBucket where
  hits := b.hits + another.hits
  totalDurationNs := b.totalDurationNs + another.totalDurationNs

instance : Zero TimerStatEntryBucket := ⟨{}⟩

instance : Add TimerStatEntryBucket := ⟨merge⟩

@[simp] theorem hits_zero : (0 : TimerStatEntryBucket).hits = 0 := rfl

@[simp] theorem totalDurationNs_zero : (0 : TimerStatEntryBucket).totalDurationNs = 0 := rfl

@[simp] theorem hits_add (a b : TimerStatEntryBucket) : (a + b).hits = a.hits + b.hits := rfl

@[simp] theorem totalDurationNs_add (a b : TimerStatEntryBucket) :
    (a + b).totalDurationNs = a.totalDurationNs + b.totalDurationNs := rfl

instance : AddCommMonoid TimerStatEntryBucket where
  add_assoc a b c := by ext <;> simp [Nat.add_assoc]
  zero_add a := by ext <;> simp
  add_zero a := by ext <;> simp
  add_comm a b := by ext <;> simp [Nat.add_comm]
  nsmul := nsmulRec

end TimerStatEntryBucket

@[ext] structure CollectorEntry where
  durationBuckets : Bucket → TimerStatEntryBucket
  maxDurationNs : ℕ

namespace CollectorEntry

instance : Zero CollectorEntry := ⟨⟨fun _ => {}, 0⟩⟩

/-- `CollectorEntry::Merge`, which leaves the maximum as it is. -/
def merge (e another : CollectorEntry) : CollectorEntry :=
  { e with durationBuckets := fun i => (e.durationBuckets i).merge (another.durationBuckets i) }

/-- What a collector keeps of an entry it merges: the buckets of both and the larger maximum. -/
instance : Add CollectorEntry where
  add e another :=
    ⟨e.durationBuckets + another.durationBuckets, max e.maxDurationNs another.maxDurationNs⟩

@[simp] theorem durationBuckets_zero (b : Bucket) : (0 : CollectorEntry).durationBuckets b = 0 := rfl

@[simp] theorem maxDurationNs_zero : (0 : CollectorEntry).maxDurationNs = 0 := rfl

@[simp] theorem durationBuckets_add (x y : CollectorEntry) (b : Bucket) :
    (x + y).durationBuckets b = x.durationBuckets b + y.durationBuckets b := rfl

@[simp] theorem maxDurationNs_add (x y : CollectorEntry) :
    (x + y).maxDurationNs = max x.maxDurationNs y.maxDurationNs := rfl

instance : AddCommMonoid CollectorEntry where
  add_assoc x y z := by
    ext1
    · funext b
      simp [add_assoc]
    · simp [Nat.max_assoc]
  zero_add x := by
    ext1
    · funext b
      simp
    · simp
  add_zero x := by
    ext1
    · funext b
      simp
    · simp
  add_comm x y := by
    ext1
    · funext b
      simp [add_comm]
    · simp [Nat.max_comm]
  nsmul := nsmulRec

/-- Merging never takes anything away. -/
theorem eq_zero_of_add_eq_zero (x y : CollectorEntry) (h : x + y = 0) : x = 0 := by
  have hbucket (b : Bucket) : x.durationBuckets b + y.durationBuckets b = 0 := by
    rw [← durationBuckets_add, h]
    rfl
  ext1
  · funext b
    have hhits := congrArg TimerStatEntryBucket.hits (hbucket b)
    have htotal := congrArg TimerStatEntryBucket.totalDurationNs (hbucket b)
    simp only [TimerStatEntryBucket.hits_add, TimerStatEntryBucket.totalDurationNs_add,
      TimerStatEntryBucket.hits_zero, TimerStatEntryBucket.totalDurationNs_zero] at hhits htotal
    ext
    · change (x.durationBuckets b).hits = 0
      omega
    · change (x.durationBuckets b).totalDurationNs = 0
      omega
  · have hmax := congrArg maxDurationNs h
    simp only [maxDurationNs_add, maxDurationNs_zero] at hmax ⊢
    omega

/-- What `Report` does to the entry at its index. -/
def addSample (e : CollectorEntry) (duration : ℕ) : CollectorEntry where
  durationBuckets := fun i =>
    let bucket := e.durationBuckets i
    if i = bucketIdx duration then ⟨bucket.hits + 1, bucket.totalDurationNs + duration⟩ else bucket
  maxDurationNs := max e.maxDurationNs duration

/-- An entry with one sample. -/
def single (duration : ℕ) : CollectorEntry := addSample 0 duration

theorem addSample_eq_add (e : CollectorEntry) (duration : ℕ) :
    e.addSample duration = e + single duration := by
  ext1
  · funext i
    simp only [addSample, single, durationBuckets_add, durationBuckets_zero]
    split_ifs
    · ext <;> simp
    · exact (add_zero _).symm
  · simp [addSample, single]

/-! What a list of entries adds up to, field by field. -/

theorem hits_sum (l : List CollectorEntry) (b : Bucket) :
    (l.sum.durationBuckets b).hits = (l.map fun e => (e.durationBuckets b).hits).sum := by
  induction l with
  | nil => rfl
  | cons e l ih =>
    rw [List.sum_cons, List.map_cons, List.sum_cons, ← ih]
    rfl

theorem totalDurationNs_sum (l : List CollectorEntry) (b : Bucket) :
    (l.sum.durationBuckets b).totalDurationNs =
      (l.map fun e => (e.durationBuckets b).totalDurationNs).sum := by
  induction l with
  | nil => rfl
  | cons e l ih =>
    rw [List.sum_cons, List.map_cons, List.sum_cons, ← ih]
    rfl

theorem maxDurationNs_sum (l : List CollectorEntry) :
    l.sum.maxDurationNs = (l.map maxDurationNs).foldr max 0 := by
  induction l with
  | nil => rfl
  | cons e l ih =>
    rw [List.sum_cons, List.map_cons, List.foldr_cons, ← ih]
    rfl

theorem single_bucket (duration : ℕ) (b : Bucket) :
    (single duration).durationBuckets b = if bucketIdx duration = b then ⟨1, duration⟩ else 0 := by
  simp only [single, addSample, durationBuckets_zero, eq_comm (a := b),
    TimerStatEntryBucket.hits_zero, TimerStatEntryBucket.totalDurationNs_zero, Nat.zero_add]

theorem single_maxDurationNs (duration : ℕ) : (single duration).maxDurationNs = duration :=
  Nat.zero_max duration

/-- What a bucket has of a list of samples. -/
theorem sum_single_bucket (durations : List ℕ) (b : Bucket) :
    (durations.map single).sum.durationBuckets b =
      ⟨(durations.filter fun d : ℕ => bucketIdx d = b).length,
        (durations.filter fun d : ℕ => bucketIdx d = b).sum⟩ := by
  induction durations with
  | nil => rfl
  | cons d durations ih =>
    rw [List.map_cons, List.sum_cons, durationBuckets_add, ih, single_bucket]
    by_cases hb : bucketIdx d = b
    · rw [if_pos hb, List.filter_cons_of_pos (by simpa using hb)]
      ext
      · simp [Nat.add_comm]
      · simp
    · rw [if_neg hb, List.filter_cons_of_neg (by simpa using hb), zero_add]

theorem sum_single_maxDurationNs (durations : List ℕ) :
    (durations.map single).sum.maxDurationNs = durations.foldr max 0 := by
  rw [maxDurationNs_sum, List.map_map]
  congr 1
  calc
    durations.map (maxDurationNs ∘ single) = durations.map id :=
      List.map_congr_left fun d _ => single_maxDurationNs d
    _ = durations := List.map_id durations

end CollectorEntry

/-- `collector_entries_`. -/
abbrev Entries := Fin kCollectorSize → CollectorEntry

namespace Entries

/-- `Merge` of a collector: the buckets by `CollectorEntry::Merge` and the maximum beside it. -/
def merge (e another : Entries) : Entries := fun i =>
  { (e i).merge (another i) with maxDurationNs := max (e i).maxDurationNs (another i).maxDurationNs }

theorem merge_eq_add (e another : Entries) : e.merge another = e + another := rfl

/-- `UnsafeClear`. -/
def cleared : Entries := 0

/-- `array::at`, which throws behind the end. -/
def at? (e : Entries) (index : ℕ) : Option CollectorEntry :=
  if h : index < kCollectorSize then some (e ⟨index, h⟩) else none

theorem at?_eq_some {e : Entries} {index : ℕ} {x : CollectorEntry} (h : e.at? index = some x) :
    ∃ hlt : index < kCollectorSize, x = e ⟨index, hlt⟩ := by
  unfold at? at h
  split_ifs at h with hlt
  exact ⟨hlt, (Option.some.inj h).symm⟩

/-- `Report` once it has the mutex of the collector; nothing when it skips the sample. -/
def report (e : Entries) (index : ℕ) (duration : ℤ) : Option Entries :=
  if duration < 0 then none
  else if h : index < kCollectorSize then
    some (Function.update e ⟨index, h⟩ ((e ⟨index, h⟩).addSample duration.toNat))
  else none

/-- One sample at one index. -/
def sample (index duration : ℕ) : Entries := fun i =>
  if i.val = index then CollectorEntry.single duration else 0

theorem report_eq_some {e e' : Entries} {index : ℕ} {duration : ℤ}
    (h : e.report index duration = some e') : e' = e + sample index duration.toNat := by
  unfold report at h
  split_ifs at h with hneg hlt
  cases h
  funext i
  rw [Function.update_apply, Pi.add_apply, sample]
  by_cases hi : i = ⟨index, hlt⟩
  · rw [if_pos hi, if_pos (congrArg Fin.val hi), CollectorEntry.addSample_eq_add, hi]
  · have hval : i.val ≠ index := fun heq => hi (Fin.ext heq)
    rw [if_neg hi, if_neg hval, add_zero]

end Entries

end CrisCore.Timer
