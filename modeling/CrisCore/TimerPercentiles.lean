import CrisCore.RankedLists
import CrisCore.TimerStats
import Mathlib.Data.Rat.Floor

/-! `TimerReport::GetPercentileDurationNsec`, over the data of a report and over the durations that
were reported to its section. The product with the percentage is taken as an exact quotient. -/
namespace CrisCore.Timer
open RankedLists

/-- What a `TimerReport` has beside its subsections. -/
structure TimerReportData where
  hasData : Bool
  sectionName : String
  timingDuration : ℤ
  reportBuckets : List TimerStatEntryBucket
  maxDurationNs : ℕ

/-- `GetReport` of one entry. -/
def getReportData (entry : CollectorEntry) (sectionName : String) (timingDuration : ℤ) :
    TimerReportData where
  hasData := (List.finRange kTimerEntryBucketNum).any fun i => (entry.durationBuckets i).hits ≠ 0
  sectionName := sectionName
  timingDuration := timingDuration
  reportBuckets := (List.finRange kTimerEntryBucketNum).map entry.durationBuckets
  maxDurationNs := entry.maxDurationNs

/-- `std::round`: halves go away from zero. -/
def roundAway (q : ℚ) : ℤ :=
  if 0 ≤ q then ⌊q + 1 / 2⌋ else ⌈q - 1 / 2⌉

def clampPercent (percent : ℤ) : ℤ :=
  let percent := if percent < 0 then 0 else percent
  if 100 < percent then 100 else percent

def targetHits (totalHits : ℕ) (percent : ℤ) : ℕ :=
  (roundAway ((totalHits : ℚ) * percent / 100)).toNat

/-- How `GetPercentileDurationNsec` ends. -/
inductive Percentile
  | nsec (value : ℕ)
  | dividesByZero
  | neverReachHere
  deriving DecidableEq

/-- The loop over the buckets. -/
def scanBuckets (targetHits : ℕ) : ℕ → List TimerStatEntryBucket → Percentile
  | _, [] => .neverReachHere
  | currentHits, bucket :: rest =>
    let currentHits := currentHits + bucket.hits
    if targetHits ≤ currentHits then
      if bucket.hits = 0 then .dividesByZero else .nsec (bucket.totalDurationNs / bucket.hits)
    else scanBuckets targetHits currentHits rest

namespace TimerReportData

def getTotalHits (report : TimerReportData) : ℕ :=
  (report.reportBuckets.map TimerStatEntryBucket.hits).sum

def getPercentileDurationNsec (report : TimerReportData) (percent : ℤ) : Percentile :=
  let percent := clampPercent percent
  if percent = 100 then .nsec report.maxDurationNs
  else
    let targetHits := targetHits report.getTotalHits percent
    if targetHits = 0 then .nsec 0 else scanBuckets targetHits 0 report.reportBuckets

end TimerReportData

/-- The entries of a collector whose section of one index was reported these durations: directly,
or to a collector that was merged into it. Reports to other sections do not count. -/
inductive Recorded (index : ℕ) : Entries → List ℕ → Prop
  | cleared : Recorded index .cleared []
  | report {e e' : Entries} {durations : List ℕ} {i : ℕ} {duration : ℤ}
      (h : Recorded index e durations) (hreport : e.report i duration = some e') :
      Recorded index e' (if i = index then durations ++ [duration.toNat] else durations)
  | merge {e another : Entries} {durations others : List ℕ} (h : Recorded index e durations)
      (hanother : Recorded index another others) :
      Recorded index (e.merge another) (durations ++ others)

theorem recorded_entry {index : ℕ} {e : Entries} {durations : List ℕ}
    (h : Recorded index e durations) (hlt : index < kCollectorSize) :
    e ⟨index, hlt⟩ = (durations.map CollectorEntry.single).sum := by
  induction h with
  | cleared => rfl
  | report h hreport ih =>
    rw [Entries.report_eq_some hreport, Pi.add_apply, ih, Entries.sample]
    split_ifs with hi hne hne
    · rw [List.map_append, List.sum_append, List.map_singleton, List.sum_singleton]
    · exact absurd hi.symm hne
    · exact absurd hne.symm hi
    · rw [add_zero]
  | merge h hanother ih ih' =>
    rw [Entries.merge_eq_add, Pi.add_apply, ih, ih', List.map_append, List.sum_append]

section Buckets

/-- Below the bucket of a duration every limit was too small; its own is above it, unless it is the
last bucket. -/
theorem bucketIdx_spec (duration : ℤ) :
    (∀ i, i < bucketIdx duration → upperNsecOfBucket i.val ≤ duration) ∧
      ((bucketIdx duration).val = kTimerEntryBucketNum - 1 ∨
        duration < upperNsecOfBucket (bucketIdx duration).val) := by
  unfold bucketIdx
  cases hfind : (List.finRange kTimerEntryBucketNum).find? fun i : Bucket =>
      duration < upperNsecOfBucket i.val with
  | none =>
    rw [List.find?_eq_none] at hfind
    refine ⟨fun i _ => ?_, .inl rfl⟩
    have hi := hfind i (List.mem_finRange i)
    simpa using hi
  | some b =>
    obtain ⟨hb, k, hk, hbk, hbefore⟩ := List.find?_eq_some_iff_getElem.mp hfind
    refine ⟨fun i hi => ?_, .inr (by simpa using hb)⟩
    have hik : i.val < k := by
      rw [List.getElem_finRange] at hbk
      have hval : b.val = k := by rw [← hbk]; rfl
      have hib : i.val < b.val := hi
      omega
    have hi' := hbefore i.val hik
    rw [List.getElem_finRange] at hi'
    simpa using hi'

theorem bucketIdx_mono {d d' : ℤ} (h : d ≤ d') : bucketIdx d ≤ bucketIdx d' := by
  by_contra hlt
  have hlimit := (bucketIdx_spec d).1 (bucketIdx d') (not_le.mp hlt)
  have hval : (bucketIdx d').val < (bucketIdx d).val := not_le.mp hlt
  have hbound := (bucketIdx d).isLt
  rcases (bucketIdx_spec d').2 with hlast | hbelow <;> omega

/-- The scan stops at the first bucket with which the hits reach the target, which is not empty. -/
theorem scanBuckets_spec {buckets : List TimerStatEntryBucket} {target current : ℕ}
    (hlt : current < target)
    (hle : target ≤ current + (buckets.map TimerStatEntryBucket.hits).sum) :
    ∃ (i : ℕ) (hi : i < buckets.length),
      current + ((buckets.take i).map TimerStatEntryBucket.hits).sum < target ∧
      target ≤ current + ((buckets.take (i + 1)).map TimerStatEntryBucket.hits).sum ∧
      scanBuckets target current buckets =
        .nsec (buckets[i].totalDurationNs / buckets[i].hits) := by
  induction buckets generalizing current with
  | nil =>
    rw [List.map_nil, List.sum_nil] at hle
    omega
  | cons bucket rest ih =>
    rw [List.map_cons, List.sum_cons] at hle
    by_cases hreach : target ≤ current + bucket.hits
    · have hhits : bucket.hits ≠ 0 := by omega
      refine ⟨0, Nat.succ_pos _, ?_, ?_, ?_⟩
      · simpa using hlt
      · simpa using hreach
      · simp only [scanBuckets, if_pos hreach, if_neg hhits, List.getElem_cons_zero]
    · obtain ⟨i, hi, hbelow, habove, hscan⟩ :=
        @ih (current + bucket.hits) (by omega) (by omega)
      refine ⟨i + 1, Nat.succ_lt_succ hi, ?_, ?_, ?_⟩
      · rw [List.take_succ_cons, List.map_cons, List.sum_cons]
        omega
      · rw [List.take_succ_cons, List.map_cons, List.sum_cons]
        omega
      · simp only [scanBuckets, if_neg hreach, List.getElem_cons_succ]
        exact hscan

end Buckets

section Target
variable {n : ℕ}

theorem targetHits_eq (n p : ℕ) : targetHits n p = (2 * n * p + 100) / 200 := by
  have hnonneg : (0 : ℚ) ≤ (n : ℚ) * ((p : ℤ) : ℚ) / 100 := by positivity
  have hquot : (n : ℚ) * ((p : ℤ) : ℚ) / 100 + 1 / 2 =
      ((2 * n * p + 100 : ℕ) : ℚ) / ((200 : ℕ) : ℚ) := by
    push_cast
    ring
  unfold targetHits roundAway
  rw [if_pos hnonneg, hquot, Rat.floor_natCast_div_natCast, ← Nat.cast_ofNat,
    ← Int.natCast_ediv, Int.toNat_natCast]

theorem exists_clampPercent (percent : ℤ) : ∃ p : ℕ, clampPercent percent = p ∧ p ≤ 100 := by
  refine ⟨(clampPercent percent).toNat, ?_, ?_⟩ <;>
  · unfold clampPercent
    simp only
    split_ifs <;> omega

theorem clampPercent_mono {p q : ℤ} (h : p ≤ q) : clampPercent p ≤ clampPercent q := by
  unfold clampPercent
  simp only
  split_ifs <;> omega

theorem targetHits_le (n : ℕ) (percent : ℤ) : targetHits n (clampPercent percent) ≤ n := by
  obtain ⟨p, hp, hle⟩ := exists_clampPercent percent
  rw [hp, targetHits_eq]
  have hmul : 2 * n * p ≤ 2 * n * 100 := Nat.mul_le_mul_left _ hle
  omega

theorem targetHits_mono (n : ℕ) {p q : ℤ} (h : p ≤ q) :
    targetHits n (clampPercent p) ≤ targetHits n (clampPercent q) := by
  obtain ⟨a, ha, -⟩ := exists_clampPercent p
  obtain ⟨b, hb, -⟩ := exists_clampPercent q
  have hab : a ≤ b := by
    have hclamp := clampPercent_mono h
    omega
  rw [ha, hb, targetHits_eq, targetHits_eq]
  have hmul : 2 * n * a ≤ 2 * n * b := Nat.mul_le_mul_left _ hab
  omega

end Target

/-- The rounded-down mean of the durations in a bucket. -/
def meanOfBucket (durations : List ℕ) (b : Bucket) : ℕ :=
  let inBucket := durations.filter fun d : ℕ => bucketIdx d = b
  inBucket.sum / inBucket.length

/-- What the percentiles of a report say about the durations. -/
structure PercentilesOf (report : TimerReportData) (durations : List ℕ) : Prop where
  maximum : ∀ percent, clampPercent percent = 100 →
    report.getPercentileDurationNsec percent = .nsec (durations.foldr max 0)
  zero : ∀ percent, clampPercent percent ≠ 100 →
    targetHits durations.length (clampPercent percent) = 0 →
    report.getPercentileDurationNsec percent = .nsec 0
  bucket : ∀ percent, clampPercent percent ≠ 100 →
    0 < targetHits durations.length (clampPercent percent) →
    ∃ d, kthSmallest durations (targetHits durations.length (clampPercent percent)) = some d ∧
      report.getPercentileDurationNsec percent = .nsec (meanOfBucket durations (bucketIdx d))
  monotone : ∀ p q, p ≤ q → ∃ v w, report.getPercentileDurationNsec p = .nsec v ∧
    report.getPercentileDurationNsec q = .nsec w ∧ v ≤ w ∧ w ≤ durations.foldr max 0

/-- The report of an entry with these samples. -/
def reportOf (durations : List ℕ) (name : String) (time : ℤ) : TimerReportData :=
  getReportData (durations.map CollectorEntry.single).sum name time

section Percentiles
variable {durations : List ℕ}

/-- The buckets of a report hold the durations. -/
theorem reportBuckets_getElem {i : ℕ} (hi : i < kTimerEntryBucketNum) (name : String) (time : ℤ)
    (hlen : i < (reportOf durations name time).reportBuckets.length) :
    (reportOf durations name time).reportBuckets[i] =
      ⟨(durations.filter fun d : ℕ => bucketIdx d = ⟨i, hi⟩).length,
        (durations.filter fun d : ℕ => bucketIdx d = ⟨i, hi⟩).sum⟩ := by
  simp only [reportOf, getReportData, List.getElem_map, List.getElem_finRange]
  exact CollectorEntry.sum_single_bucket durations _

theorem hits_eq_countP (b : Bucket) :
    ((durations.map CollectorEntry.single).sum.durationBuckets b).hits =
      durations.countP fun d : ℕ => bucketIdx d = b := by
  rw [List.countP_eq_length_filter]
  exact congrArg TimerStatEntryBucket.hits (CollectorEntry.sum_single_bucket durations b)

theorem sum_countP_take {i : ℕ} (hi : i ≤ kTimerEntryBucketNum) :
    (((List.finRange kTimerEntryBucketNum).take i).map fun b : Bucket =>
      durations.countP fun d : ℕ => bucketIdx d = b).sum =
      durations.countP fun d : ℕ => (bucketIdx d).val < i := by
  -- as a variable, so that no limit is ever evaluated
  obtain ⟨f, hf⟩ : ∃ f : ℕ → Bucket, ∀ d : ℕ, bucketIdx d = f d := ⟨_, fun _ => rfl⟩
  simp only [hf]
  exact sum_take_countP f durations hi

/-- The hits of the first buckets are the durations in them. -/
theorem sum_hits_take {i : ℕ} (hi : i ≤ kTimerEntryBucketNum) (name : String) (time : ℤ) :
    (((reportOf durations name time).reportBuckets.take i).map TimerStatEntryBucket.hits).sum =
      durations.countP fun d : ℕ => (bucketIdx d).val < i := by
  rw [← sum_countP_take hi]
  simp only [reportOf, getReportData, ← List.map_take, List.map_map]
  refine congrArg List.sum (List.map_congr_left fun b _ => ?_)
  exact hits_eq_countP b

theorem getTotalHits_eq (name : String) (time : ℤ) :
    (reportOf durations name time).getTotalHits = durations.length := by
  have htake := @sum_hits_take durations _ (Nat.le_refl _) name time
  have hall : durations.countP (fun d : ℕ => (bucketIdx d).val < kTimerEntryBucketNum) =
      durations.length := by
    apply List.countP_eq_length.mpr
    intro d _
    exact decide_eq_true (bucketIdx d).isLt
  rw [hall, List.take_of_length_le] at htake
  · exact htake
  · simp [reportOf, getReportData]

/-- The bucket with which the hits reach `k` is that of the k-th smallest duration. -/
theorem bucketIdx_kthSmallest {k i d : ℕ} (hi : i < kTimerEntryBucketNum) (hpos : 0 < k)
    (hd : kthSmallest durations k = some d)
    (hbelow : durations.countP (fun d : ℕ => (bucketIdx d).val < i) < k)
    (habove : k ≤ durations.countP fun d : ℕ => (bucketIdx d).val < i + 1) :
    bucketIdx d = ⟨i, hi⟩ := by
  have hmono (x y : ℕ) (hxy : x ≤ y) : bucketIdx x ≤ bucketIdx y :=
    bucketIdx_mono (Int.ofNat_le.mpr hxy)
  obtain ⟨f, hf⟩ : ∃ f : ℕ → Bucket, ∀ d : ℕ, bucketIdx d = f d := ⟨_, fun _ => rfl⟩
  simp only [hf] at hbelow habove hmono ⊢
  have hkey (b : ℕ) : (f d).val < b ↔ k ≤ durations.countP fun d => (f d).val < b := by
    have hdown (x y : ℕ) (hxy : x ≤ y) (hy : decide ((f y).val < b) = true) :
        decide ((f x).val < b) = true := by
      have hle : (f x).val ≤ (f y).val := hmono x y hxy
      have hlt := of_decide_eq_true hy
      exact decide_eq_true (by omega)
    have hiff := kthSmallest_holds_iff (P := fun d => decide ((f d).val < b)) hdown hpos hd
    rwa [decide_eq_true_eq] at hiff
  have hlt := (hkey (i + 1)).mpr habove
  have hle : ¬ (f d).val < i := by
    rw [hkey i]
    omega
  exact Fin.ext (show (f d).val = i by omega)

theorem meanOfBucket_le {b : Bucket} {m : ℕ}
    (h : ∀ x ∈ durations, bucketIdx (x : ℕ) = b → x ≤ m) : meanOfBucket durations b ≤ m := by
  apply sum_div_length_le
  intro x hx
  obtain ⟨hmem, hb⟩ := List.mem_filter.mp hx
  exact h x hmem (of_decide_eq_true hb)

theorem le_meanOfBucket {b : Bucket} {m d : ℕ} (hd : d ∈ durations) (hb : bucketIdx d = b)
    (h : ∀ y ∈ durations, bucketIdx (y : ℕ) = b → m ≤ y) : m ≤ meanOfBucket durations b := by
  apply le_sum_div_length
  · exact List.ne_nil_of_mem (List.mem_filter.mpr ⟨hd, decide_eq_true hb⟩)
  · intro y hy
    obtain ⟨hmem, hb'⟩ := List.mem_filter.mp hy
    exact h y hmem (of_decide_eq_true hb')

/-- Whole buckets are apart from each other, so their means are in order. -/
theorem meanOfBucket_mono {d d' : ℕ} (hd' : d' ∈ durations) (h : d ≤ d') :
    meanOfBucket durations (bucketIdx d) ≤ meanOfBucket durations (bucketIdx d') := by
  have hle : bucketIdx d ≤ bucketIdx d' := bucketIdx_mono (Int.ofNat_le.mpr h)
  rcases hle.eq_or_lt with heq | hlt
  · rw [heq]
  · refine le_meanOfBucket hd' rfl fun y _ hy => meanOfBucket_le fun x _ hx => ?_
    by_contra hyx
    have hback : bucketIdx y ≤ bucketIdx x := bucketIdx_mono (Int.ofNat_le.mpr (by omega))
    rw [hx, hy] at hback
    exact absurd hback (not_le.mpr hlt)

theorem le_foldr_max {x : ℕ} (h : x ∈ durations) : x ≤ durations.foldr max 0 := by
  induction durations with
  | nil => cases h
  | cons d durations ih =>
    rw [List.foldr_cons]
    rcases List.mem_cons.mp h with rfl | h
    · exact Nat.le_max_left _ _
    · exact (ih h).trans (Nat.le_max_right _ _)

theorem scanBuckets_reportOf {k : ℕ} (hpos : 0 < k) (hk : k ≤ durations.length) (name : String)
    (time : ℤ) : ∃ d, kthSmallest durations k = some d ∧
      scanBuckets k 0 (reportOf durations name time).reportBuckets =
        .nsec (meanOfBucket durations (bucketIdx d)) := by
  obtain ⟨d, hd⟩ := exists_kthSmallest hpos hk
  have htotal : ((reportOf durations name time).reportBuckets.map TimerStatEntryBucket.hits).sum =
      durations.length := getTotalHits_eq name time
  obtain ⟨i, hi, hbelow, habove, hscan⟩ :=
    @scanBuckets_spec (reportOf durations name time).reportBuckets k 0 hpos (by omega)
  have hlt : i < kTimerEntryBucketNum := by simpa [reportOf, getReportData] using hi
  rw [sum_hits_take hlt.le, Nat.zero_add] at hbelow
  rw [sum_hits_take hlt, Nat.zero_add] at habove
  refine ⟨d, hd, ?_⟩
  rw [hscan, reportBuckets_getElem hlt, bucketIdx_kthSmallest hlt hpos hd hbelow habove]
  rfl

variable (name : String) (time : ℤ) {percent : ℤ}

theorem percentile_maximum (hp : clampPercent percent = 100) :
    (reportOf durations name time).getPercentileDurationNsec percent =
      .nsec (durations.foldr max 0) := by
  have hmax : (reportOf durations name time).maxDurationNs = durations.foldr max 0 :=
    CollectorEntry.sum_single_maxDurationNs durations
  rw [TimerReportData.getPercentileDurationNsec, if_pos hp, hmax]

theorem percentile_zero (hp : clampPercent percent ≠ 100)
    (ht : targetHits durations.length (clampPercent percent) = 0) :
    (reportOf durations name time).getPercentileDurationNsec percent = .nsec 0 := by
  simp only [TimerReportData.getPercentileDurationNsec, if_neg hp, getTotalHits_eq, if_pos ht]

theorem percentile_bucket (hp : clampPercent percent ≠ 100)
    (ht : 0 < targetHits durations.length (clampPercent percent)) :
    ∃ d, kthSmallest durations (targetHits durations.length (clampPercent percent)) = some d ∧
      (reportOf durations name time).getPercentileDurationNsec percent =
        .nsec (meanOfBucket durations (bucketIdx d)) := by
  obtain ⟨d, hd, hscan⟩ := scanBuckets_reportOf ht (targetHits_le _ percent) name time
  refine ⟨d, hd, ?_⟩
  simp only [TimerReportData.getPercentileDurationNsec, if_neg hp, getTotalHits_eq, if_neg ht.ne']
  exact hscan

/-- There always is a value, and it is never above the maximum. -/
theorem percentile_le_maximum (percent : ℤ) :
    ∃ v, (reportOf durations name time).getPercentileDurationNsec percent = .nsec v ∧
      v ≤ durations.foldr max 0 := by
  by_cases hp : clampPercent percent = 100
  · exact ⟨_, percentile_maximum name time hp, Nat.le_refl _⟩
  · rcases Nat.eq_zero_or_pos (targetHits durations.length (clampPercent percent)) with ht | ht
    · exact ⟨_, percentile_zero name time hp ht, Nat.zero_le _⟩
    · obtain ⟨d, -, hval⟩ := percentile_bucket name time hp ht
      exact ⟨_, hval, meanOfBucket_le fun x hx _ => le_foldr_max hx⟩

theorem percentile_mono {p q : ℤ} (hpq : p ≤ q) {v w : ℕ}
    (hv : (reportOf durations name time).getPercentileDurationNsec p = .nsec v)
    (hw : (reportOf durations name time).getPercentileDurationNsec q = .nsec w) : v ≤ w := by
  have hclamp := clampPercent_mono hpq
  obtain ⟨a, ha, hale⟩ := exists_clampPercent q
  by_cases hq : clampPercent q = 100
  · obtain ⟨v', hv', hle⟩ := percentile_le_maximum name time p
    rw [percentile_maximum name time hq] at hw
    rw [hv] at hv'
    cases hv'
    cases hw
    exact hle
  · have hp : clampPercent p ≠ 100 := by omega
    rcases Nat.eq_zero_or_pos (targetHits durations.length (clampPercent p)) with ht | ht
    · rw [percentile_zero name time hp ht] at hv
      cases hv
      exact Nat.zero_le _
    · have htt := targetHits_mono durations.length hpq
      obtain ⟨d, hd, hdval⟩ := percentile_bucket name time hp ht
      obtain ⟨d', hd', hdval'⟩ := percentile_bucket name time hq (ht.trans_le htt)
      rw [hdval] at hv
      rw [hdval'] at hw
      cases hv
      cases hw
      exact meanOfBucket_mono (mem_of_kthSmallest hd') (kthSmallest_mono htt hd hd')

end Percentiles

/-- For all durations that were reported, to any collectors that were merged in any order, and every
percentage. -/
theorem percentiles_of_recorded_durations {index : ℕ} {e : Entries} {durations : List ℕ}
    (h : Recorded index e durations) {entry : CollectorEntry} (hentry : e.at? index = some entry)
    (name : String) (time : ℤ) : PercentilesOf (getReportData entry name time) durations := by
  obtain ⟨hlt, rfl⟩ := Entries.at?_eq_some hentry
  rw [recorded_entry h hlt]
  refine ⟨fun _ => percentile_maximum name time, fun _ => percentile_zero name time,
    fun _ => percentile_bucket name time, fun p q hpq => ?_⟩
  obtain ⟨v, hv, -⟩ := percentile_le_maximum name time p
  obtain ⟨w, hw, hmax⟩ := percentile_le_maximum name time q
  exact ⟨v, w, hv, hw, percentile_mono name time hpq hv hw, hmax⟩

/-- Two durations reported to one collector, a third to another that is merged into it. -/
theorem percentiles_of_three_durations :
    ∃ e entry, Recorded 1 e [5, 20000, 7] ∧ e.at? 1 = some entry ∧
      PercentilesOf (getReportData entry "section" 0) [5, 20000, 7] := by
  have hfirst : Recorded 1 _ [5] :=
    .report .cleared (show Entries.cleared.report 1 5 = some _ from rfl)
  have hsecond : Recorded 1 _ [5, 20000] :=
    .report hfirst (show Entries.report _ 1 20000 = some _ from rfl)
  have hother : Recorded 1 _ [7] :=
    .report .cleared (show Entries.cleared.report 1 7 = some _ from rfl)
  exact ⟨_, _, hsecond.merge hother, rfl,
    percentiles_of_recorded_durations (hsecond.merge hother) rfl "section" 0⟩

end CrisCore.Timer
