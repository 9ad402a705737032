import Mathlib.Algebra.Order.BigOperators.Group.List
import Mathlib.Algebra.Order.Group.Nat
import Redcurrant.Metautils.Lb
import Redcurrant.Sqliterepo.Version

/-!
# pool の読み直し

pool は provider が FALSE を返すまで service を受け取り、score の大きい順に並べ、標準偏差から外れたものを除く。JSON の
配列の provider は読めた service とともに FALSE を返し、尽きると TRUE を返し続ける。
-/

namespace Redcurrant.Metautils

open Infra Sqliterepo List

/-! ## JSON の配列 -/

structure JsonReader (J : Type) where
  isObject : J → Bool
  load : J → Except GError ServiceInfo

variable {J : Type} (reader : JsonReader J)

/-- 読める要素の service -/
def JsonReader.service (item : J) : Option ServiceInfo :=
  if reader.isObject item then (reader.load item).toOption else none

/-- `_lb_consume_provider`。`fuel` 回で終わらなければ `none`。 -/
def consumeProvider {σ : Type} (provide : σ → Bool × Option ServiceInfo × σ) :
    Nat → σ → List ServiceInfo → Option (List ServiceInfo)
  | 0, _, _ => none
  | fuel + 1, s, gpa =>
    match provide s with
    | (false, _, _) => some gpa
    | (true, none, s) => consumeProvider provide fuel s gpa
    | (true, some si, s) =>
      consumeProvider provide fuel s (if 0 < si.score then gpa ++ [si] else gpa)

/-- `grid_lb_reload_json_object` の `provide`。配列を後ろから読む。 -/
def provideJson (items : List J) : Nat → Bool × Option ServiceInfo × Nat
  | 0 => (true, none, 0)
  | i + 1 =>
    match items[i]? with
    | none => (true, none, i)
    | some item =>
      if reader.isObject item then
        match reader.load item with
        | .ok si => (false, some si, i)
        | .error _ => provideJson items i
      else (true, none, i)

/-- `grid_lb_reload_json_object`。`none` は配列でない JSON。 -/
def reloadJsonObject (fuel : Nat) : Option (List J) → Option (Except GError (List ServiceInfo))
  | none => some (.error ⟨400, "JSON object is not an array"⟩)
  | some items => (consumeProvider (provideJson reader items) fuel items.length []).map .ok

section

variable {reader} {items : List J} {gpa r : List ServiceInfo}

theorem consumeProvider_iff {σ : Type} {provide : σ → Bool × Option ServiceInfo × σ} {s : σ} :
    (∃ fuel, consumeProvider provide fuel s gpa = some r) ↔
      ∃ fuel, consumeProvider provide (fuel + 1) s gpa = some r := by
  constructor
  · rintro ⟨fuel, h⟩
    cases fuel with
    | zero => cases h
    | succ fuel => exact ⟨fuel, h⟩
  · exact fun ⟨fuel, h⟩ => ⟨fuel + 1, h⟩

/-- 先頭の `i` 個に読める要素があるときに限り、何も受け取らずに終わる -/
theorem consumeProvider_provideJson {i : Nat} (hi : i ≤ items.length) :
    (∃ fuel, consumeProvider (provideJson reader items) fuel i gpa = some r) ↔
      r = gpa ∧ ∃ item ∈ items.take i, (reader.service item).isSome = true := by
  induction i with
  | zero =>
    have hend : ∀ fuel, consumeProvider (provideJson reader items) fuel 0 gpa = none := by
      intro fuel
      induction fuel with
      | zero => rfl
      | succ fuel ih => exact ih
    simp [hend]
  | succ i ih =>
    have hget : items[i]? = some items[i] := getElem?_eq_getElem hi
    rw [take_succ_eq_append_getElem hi, consumeProvider_iff]
    simp only [consumeProvider, provideJson, hget, mem_append, mem_singleton,
      or_and_right, exists_or, exists_eq_left]
    have ih := ih (Nat.le_of_succ_le hi)
    by_cases hobj : reader.isObject items[i] = true
    · rw [if_pos hobj, JsonReader.service, if_pos hobj]
      cases reader.load items[i] with
      | ok si =>
        -- 読めた service を渡さずに終わる
        simpa [Except.toOption] using eq_comm
      | error e =>
        rw [consumeProvider_iff] at ih
        simp only [consumeProvider] at ih
        simpa [Except.toOption] using ih
    · rw [if_neg hobj, JsonReader.service, if_neg hobj]
      simpa using ih

end

/-- **配列の読み直しが求めた通りに終わるのは、読める要素があり、どの score も正でないとき。** -/
theorem reload_json_iff (items : List J) :
    (∃ fuel services, reloadJsonObject reader fuel (some items) = some (.ok services) ∧
      services.Perm ((items.filterMap reader.service).filter fun si => 0 < si.score)) ↔
    (∃ item ∈ items, (reader.service item).isSome = true) ∧
      ∀ item ∈ items, ∀ si, reader.service item = some si → si.score ≤ 0 := by
  have hrun : ∀ services,
      (∃ fuel, reloadJsonObject reader fuel (some items) = some (.ok services)) ↔
        services = [] ∧ ∃ item ∈ items, (reader.service item).isSome = true := by
    intro services
    have h : (∃ fuel, consumeProvider (provideJson reader items) fuel items.length [] =
        some services) ↔ _ := consumeProvider_provideJson (Nat.le_refl _)
    rw [take_length] at h
    rw [← h]
    simp [reloadJsonObject]
  have hnil : ((items.filterMap reader.service).filter fun si => 0 < si.score) = [] ↔
      ∀ item ∈ items, ∀ si, reader.service item = some si → si.score ≤ 0 := by
    rw [filter_eq_nil_iff]
    simp only [mem_filterMap, decide_eq_true_eq, not_lt]
    exact ⟨fun h item hi si hs => h si ⟨item, hi, hs⟩, fun h si ⟨item, hi, hs⟩ => h item hi si hs⟩
  constructor
  · rintro ⟨fuel, services, hr, hp⟩
    obtain ⟨rfl, hsome⟩ := (hrun services).mp ⟨fuel, hr⟩
    exact ⟨hsome, hnil.mp (nil_perm.mp hp)⟩
  · rintro ⟨hsome, hle⟩
    obtain ⟨fuel, hr⟩ := (hrun []).mpr ⟨rfl, hsome⟩
    exact ⟨fuel, [], hr, nil_perm.mpr (hnil.mpr hle)⟩

def numberReader : JsonReader Nat where
  isObject _ := true
  load n := .ok ⟨[], [], ⟨.v4, [], 0, 0⟩, n, []⟩

/-- **反例。** score の正の service を読んでも、pool は空。 -/
theorem reload_json_empty : reloadJsonObject numberReader 1 (some [5]) = some (.ok []) ∧
    ([5].filterMap numberReader.service).map (·.score) = [5] := by
  decide +kernel

/-! ## 標準偏差による shorten -/

/-- `r` は二乗が `x` 以上になる最小の数 -/
def IsCeilSqrt (x r : Nat) : Prop := x ≤ r * r ∧ ∀ y < r, y * y < x

instance (x r : Nat) : Decidable (IsCeilSqrt x r) := inferInstanceAs (Decidable (_ ∧ _))

theorem IsCeilSqrt.unique {x r r' : Nat} (h : IsCeilSqrt x r) (h' : IsCeilSqrt x r') : r = r' := by
  refine Nat.le_antisymm (Nat.not_lt.mp fun hlt => ?_) (Nat.not_lt.mp fun hlt => ?_)
  · exact Nat.not_lt.mpr h'.1 (h.2 r' hlt)
  · exact Nat.not_lt.mpr h.1 (h'.2 r hlt)

/-- `ceil(sqrt((gdouble) x))`。`x < 2 ^ 52` では丸めの誤差が無く、それより上では 1 まで違うことがある。 -/
structure CeilSqrt where
  eval : Nat → Nat
  exact : ∀ x < 2 ^ 52, IsCeilSqrt x (eval x)
  near : ∀ x < 2 ^ 64, ∀ r, IsCeilSqrt x r → eval x ≤ r + 1 ∧ r ≤ eval x + 1

/-- `FUNC_CLAMP`。引数は `guint`。 -/
def funcClamp (v lo hi : Nat) : Nat := max (min (v % 2 ^ 32) hi) lo

namespace Lb

variable (lb : Lb)

def scores : List Nat := lb.sortedByScore.map (·.score)

def maxScore : Nat := lb.scores.head?.getD 0

/-- `_compute_min_score_by_SD` の平均。和は `guint64` に収まる。 -/
def mean : Nat := lb.scores.sum / lb.scores.length

def variance : Nat :=
  ((lb.scores.map fun x => x * x).sum % 2 ^ 64 / lb.scores.length + 2 ^ 64 -
    lb.mean * lb.mean % 2 ^ 64) % 2 ^ 64

def computeMinScoreBySD (sqrt : CeilSqrt) : Nat :=
  funcClamp ((lb.mean + 2 ^ 64 - sqrt.eval lb.variance % 2 ^ 64) % 2 ^ 64) 1 lb.maxScore

def computeSizeGreater (score : Nat) : Nat :=
  (lb.scores.takeWhile fun x => decide (score ≤ x)).length

def computeSizeShortenedBySD (standardDeviation : Bool) (sqrt : CeilSqrt) : Nat :=
  if standardDeviation then lb.computeSizeGreater (lb.computeMinScoreBySD sqrt)
  else lb.scores.length

theorem scores_eq : lb.scores = (relinkServices lb.services).map Prod.snd := by
  have h : ∀ l : List (Nat × Nat), (cumulateScoresSum l).map (·.score) = l.map Prod.snd := by
    intro l
    induction l with
    | nil => rfl
    | cons slot l ih => rw [cumulateScoresSum, map_cons, map_cons, ih]
  exact h _

theorem pairwise_scores : lb.scores.Pairwise (· ≥ ·) := by
  rw [scores_eq, pairwise_map]
  refine (pairwise_orderBy _ _).imp fun {a b} h => ?_
  omega

theorem perm_scores : lb.scores.Perm (lb.services.map (·.score.toNat)) := by
  rw [scores_eq]
  refine ((perm_orderBy _ _).map _).trans (((reverse_perm _).map _).trans ?_)
  rw [map_map]
  have : (Prod.snd ∘ fun s : ServiceInfo × Nat => (s.2, s.1.score.toNat)) =
    (·.score.toNat) ∘ Prod.fst := rfl
  rw [this, ← map_map, zipIdx_map_fst]

variable {lb}

theorem lt_computeSizeGreater {score i x : Nat} (hx : lb.scores[i]? = some x) :
    i < lb.computeSizeGreater score ↔ score ≤ x := by
  have hsorted := lb.pairwise_scores
  unfold computeSizeGreater
  generalize lb.scores = l at hx hsorted ⊢
  induction l generalizing i with
  | nil => cases hx
  | cons y l ih =>
    obtain ⟨hy, hsorted⟩ := pairwise_cons.mp hsorted
    by_cases h : score ≤ y
    · rw [takeWhile_cons_of_pos (by simpa using h), length_cons]
      cases i with
      | zero =>
        cases hx
        simp [h]
      | succ i =>
        rw [Nat.add_lt_add_iff_right]
        exact ih hx hsorted
    · rw [takeWhile_cons_of_neg (by simpa using h)]
      refine iff_of_false (Nat.not_lt_zero i) fun hle => h (hle.trans ?_)
      -- 後ろの score は先頭より大きくない
      rcases mem_cons.mp (mem_of_getElem? hx) with rfl | hm
      · exact Nat.le_refl _
      · exact hy x hm

theorem le_maxScore {x : Nat} (hx : x ∈ lb.scores) : x ≤ lb.maxScore := by
  have hsorted := lb.pairwise_scores
  rw [maxScore]
  generalize lb.scores = l at hx hsorted ⊢
  cases l with
  | nil => cases hx
  | cons m l =>
    rcases mem_cons.mp hx with rfl | hx
    · exact Nat.le_refl _
    · exact (pairwise_cons.mp hsorted).1 x hx

theorem mean_le_maxScore : lb.mean ≤ lb.maxScore :=
  Nat.div_le_of_le_mul (sum_le_card_nsmul _ _ fun _ => le_maxScore)

theorem variance_lt : lb.variance < 2 ^ 64 := Nat.mod_lt _ (Nat.two_pow_pos 64)

theorem maxScore_lt (hscore : ∀ s ∈ lb.services, s.score < 2 ^ 31) : lb.maxScore < 2 ^ 31 := by
  rw [maxScore]
  cases hs : lb.scores.head? with
  | none => exact Nat.two_pow_pos 31
  | some m =>
    have hm := lb.perm_scores.mem_iff.mp (mem_of_mem_head? hs)
    obtain ⟨s, hmem, rfl⟩ := mem_map.mp hm
    have := hscore s hmem
    rw [Option.getD_some]
    omega

theorem scores_pos {x : Nat} (hx : x ∈ lb.scores) : 0 < x := by
  obtain ⟨s, hs, rfl⟩ := mem_map.mp (lb.perm_scores.mem_iff.mp hx)
  have := lb.scored s hs
  omega

theorem mean_pos {x : Nat} (hx : x ∈ lb.scores) : 0 < lb.mean :=
  Nat.div_pos ((Nat.mul_one _).ge.trans (card_nsmul_le_sum lb.scores 1 fun _ => scores_pos))
    (length_pos_of_mem hx)

/-- score がすべて同じで、二乗の和が `guint64` に収まれば、分散は 0 -/
theorem variance_eq_zero (hall : ∀ x ∈ lb.scores, x = lb.maxScore)
    (hsum : (lb.scores.map fun x => x * x).sum < 2 ^ 64) : lb.variance = 0 := by
  have hrep := eq_replicate_of_mem hall
  rcases Nat.eq_zero_or_pos lb.scores.length with h0 | hpos
  · simp [variance, mean, length_eq_zero_iff.mp h0]
  have hmean : lb.mean = lb.maxScore := by
    rw [mean, hrep, sum_replicate_nat, length_replicate, Nat.mul_div_cancel_left _ hpos]
  have hsq : (lb.scores.map fun x => x * x).sum = lb.scores.length * (lb.maxScore * lb.maxScore) := by
    rw [hrep, map_replicate, sum_replicate_nat, length_replicate]
  have hle := Nat.le_mul_of_pos_left (lb.maxScore * lb.maxScore) hpos
  rw [variance, Nat.mod_eq_of_lt hsum, hsq, Nat.mul_div_cancel_left _ hpos, hmean,
    Nat.mod_eq_of_lt (by omega : lb.maxScore * lb.maxScore < 2 ^ 64), Nat.add_sub_cancel_left,
    Nat.mod_self]

/-- `sd` を標準偏差とする shorten は求めた service だけを残す -/
def ShortenedRight (lb : Lb) (sqrt : CeilSqrt) (sd : Nat) : Prop :=
  ∀ i x : Nat, lb.scores[i]? = some x →
    (i < lb.computeSizeShortenedBySD true sqrt ↔ max 1 ((lb.mean : Int) - sd) ≤ x)

/-- 最大でない score は、求めた標準偏差でも計算した標準偏差でも同じ側にある。引き算が負になれば、一周した値に届く。 -/
def SameSide (lb : Lb) (sqrt : CeilSqrt) (sd : Nat) : Prop :=
  ∀ x ∈ lb.scores, x = lb.maxScore ∨
    if sqrt.eval lb.variance ≤ lb.mean then
      (lb.mean ≤ x + sqrt.eval lb.variance ↔ lb.mean ≤ x + sd)
    else 2 ^ 32 + lb.mean ≤ x + sqrt.eval lb.variance

theorem le_minScore_iff {sqrt : CeilSqrt} {sd x : Nat}
    (hscore : ∀ s ∈ lb.services, s.score < 2 ^ 31) (hsd : IsCeilSqrt lb.variance sd)
    (hx : x ∈ lb.scores) : (lb.computeMinScoreBySD sqrt ≤ x ↔ max 1 ((lb.mean : Int) - sd) ≤ x) ↔
      x = lb.maxScore ∨ if sqrt.eval lb.variance ≤ lb.mean then
        (lb.mean ≤ x + sqrt.eval lb.variance ↔ lb.mean ≤ x + sd)
      else 2 ^ 32 + lb.mean ≤ x + sqrt.eval lb.variance := by
  have hmax := maxScore_lt hscore
  have hmean := lb.mean_le_maxScore
  have hpos := mean_pos hx
  have hx1 := scores_pos hx
  have hle := le_maxScore hx
  obtain ⟨hnear, hnear'⟩ := sqrt.near _ lb.variance_lt sd hsd
  -- 標準偏差は `2 ^ 32` までである
  have hsd32 : sd ≤ 2 ^ 32 := by
    by_contra hlt
    have := hsd.2 (2 ^ 32) (by omega)
    have := lb.variance_lt
    omega
  rw [computeMinScoreBySD, funcClamp]
  split
  · next hr =>
    have hdiff : (lb.mean + 2 ^ 64 - sqrt.eval lb.variance % 2 ^ 64) % 2 ^ 64 % 2 ^ 32 =
        lb.mean - sqrt.eval lb.variance := by omega
    rw [hdiff]
    omega
  · next hr =>
    have hdiff : (lb.mean + 2 ^ 64 - sqrt.eval lb.variance % 2 ^ 64) % 2 ^ 64 % 2 ^ 32 =
        2 ^ 32 + lb.mean - sqrt.eval lb.variance := by omega
    rw [hdiff]
    omega

/-- **標準偏差による shorten が求めた service を残すのは `SameSide` のとき。** 二乗の和が `2 ^ 64` に、分散が `2 ^ 52` に
届かなければ、標準偏差が平均以下のとき。 -/
theorem shortened_by_SD_iff (lb : Lb) (sqrt : CeilSqrt) {sd : Nat}
    (hscore : ∀ s ∈ lb.services, s.score < 2 ^ 31) (hsd : IsCeilSqrt lb.variance sd) :
    (ShortenedRight lb sqrt sd ↔ SameSide lb sqrt sd) ∧
      ((lb.scores.map fun x => x * x).sum < 2 ^ 64 → lb.variance < 2 ^ 52 →
        (ShortenedRight lb sqrt sd ↔ sd ≤ lb.mean)) := by
  have hiff : ShortenedRight lb sqrt sd ↔ SameSide lb sqrt sd := by
    have hsize : ∀ {i x : Nat}, lb.scores[i]? = some x →
        (i < lb.computeSizeShortenedBySD true sqrt ↔ lb.computeMinScoreBySD sqrt ≤ x) := by
      intro i x hx
      rw [computeSizeShortenedBySD, if_pos rfl, lt_computeSizeGreater hx]
    constructor
    · intro h x hx
      obtain ⟨i, hi⟩ := getElem?_of_mem hx
      exact (le_minScore_iff hscore hsd hx).mp ((hsize hi).symm.trans (h i x hi))
    · intro h i x hi
      have hx := mem_of_getElem? hi
      exact (hsize hi).trans ((le_minScore_iff hscore hsd hx).mpr (h x hx))
  refine ⟨hiff, fun hsum hvar => hiff.trans ?_⟩
  have heq : sqrt.eval lb.variance = sd := (sqrt.exact _ hvar).unique hsd
  rw [SameSide, heq]
  constructor
  · intro h
    by_contra hlt
    -- 引き算が負なら、どの score も最大で、分散は 0
    have hsmall : sd ≤ 2 ^ 26 := by
      by_contra hbig
      have := hsd.2 (2 ^ 26) (by omega)
      omega
    have hall : ∀ x ∈ lb.scores, x = lb.maxScore := by
      intro x hx
      refine (h x hx).resolve_right ?_
      rw [if_neg hlt]
      have := le_maxScore hx
      have := maxScore_lt hscore
      omega
    have hzero := variance_eq_zero hall hsum
    rw [hzero] at hsd
    have := IsCeilSqrt.unique hsd (⟨le_rfl, nofun⟩ : IsCeilSqrt 0 0)
    omega
  · intro hle x _
    rw [if_pos hle]
    exact .inr .rfl

end Lb

theorem isCeilSqrt_sqrt (x : Nat) : IsCeilSqrt x (if x = 0 then 0 else (x - 1).sqrt + 1) := by
  split
  · next h => exact ⟨h.le, fun y hy => absurd hy (Nat.not_lt_zero y)⟩
  have hlt : x - 1 < ((x - 1).sqrt + 1) * ((x - 1).sqrt + 1) := Nat.lt_succ_sqrt (x - 1)
  refine ⟨by omega, fun y hy => ?_⟩
  have hle := (Nat.mul_self_le_mul_self (Nat.le_of_lt_succ hy)).trans (Nat.sqrt_le (x - 1))
  omega

def exactSqrt : CeilSqrt where
  eval x := if x = 0 then 0 else (x - 1).sqrt + 1
  exact x _ := isCeilSqrt_sqrt x
  near x _ r hr := by
    rw [hr.unique (isCeilSqrt_sqrt x)]
    omega

/-- score `n + 1` の service の shorten しない pool -/
def Lb.ofScores (l : List Nat) (h : l.length < 2 ^ 32) : Lb where
  services := l.map fun n : Nat => ⟨[], [], ⟨.v4, [], 0, 0⟩, (n : Int) + 1, []⟩
  sizeMax := l.length
  version := 1
  resetDelay := 0
  scored := by
    simp only [forall_mem_map]
    exact fun n _ => Int.natCast_succ_pos n
  length_lt := by simpa using h
  sizeMax_le := by simp
  sizeMax_pos := by
    rw [← length_pos_iff, length_map]
    exact id

/-- score 9、8、1 の pool では、平均 6 − 標準偏差 4 に満たない 1 が除かれる -/
theorem shortened_by_SD_three : (Lb.ofScores [8, 7, 0] (by decide)).scores = [9, 8, 1] ∧
    (Lb.ofScores [8, 7, 0] (by decide)).ShortenedRight exactSqrt 4 ∧
    (Lb.ofScores [8, 7, 0] (by decide)).computeSizeShortenedBySD true exactSqrt = 2 := by
  have hscores : (Lb.ofScores [8, 7, 0] (by decide)).scores = [9, 8, 1] := by decide +kernel
  refine ⟨hscores, ?_, by decide +kernel⟩
  exact ((Lb.shortened_by_SD_iff _ exactSqrt (by decide) (by decide +kernel)).2 (by decide +kernel)
    (by decide +kernel)).mpr (by decide +kernel)

/-- **反例。** score 100 の 1 つと 1 の 19 個では標準偏差 22 が平均 5 を超え、1 つだけ残る。 -/
theorem spread_pool_shortened : ¬ (Lb.ofScores (99 :: replicate 19 0) (by decide)).ShortenedRight
      exactSqrt 22 ∧
    (Lb.ofScores (99 :: replicate 19 0) (by decide)).computeSizeShortenedBySD true exactSqrt =
      1 := by
  have hsize : (Lb.ofScores (99 :: replicate 19 0) (by decide)).computeSizeShortenedBySD true
      exactSqrt = 1 := by
    decide +kernel
  have hmean : (Lb.ofScores (99 :: replicate 19 0) (by decide)).mean = 5 := by decide +kernel
  have hsecond : (Lb.ofScores (99 :: replicate 19 0) (by decide)).scores[1]? = some 1 := by
    decide +kernel
  refine ⟨fun h => ?_, hsize⟩
  have hkept := (h 1 1 hsecond).mpr (by rw [hmean]; decide)
  rw [hsize] at hkept
  exact Nat.lt_irrefl 1 hkept

end Redcurrant.Metautils
