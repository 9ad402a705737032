import Redcurrant.Metautils.LbLocation
import Redcurrant.Metautils.LbReload

/-!
# 重みの付いた乱数

`__next_SRAND` の `dichotomic_search` は和の境目を 1 つ後ろの service に数える。
-/

namespace Redcurrant.Metautils.Lb

open Infra List

variable {lb : Lb} {start stop i j : Nat}

/-- `dichotomic_search` が読む slot -/
def dichotomicReads (lb : Lb) (needle start stop : Nat) : List Nat :=
  let middle := (start + stop) / 2
  if stop - start ≤ 1 then [middle, start, stop]
  else middle :: (if needle ≤ lb.sumAt middle then dichotomicReads lb needle middle stop
    else dichotomicReads lb needle start middle)
termination_by stop - start

theorem length_scores : lb.scores.length = lb.services.length := by
  rw [lb.perm_scores.length_eq, length_map]

theorem pos_of_mem_scores {x : Nat} (hx : x ∈ lb.scores) : 0 < x := by
  obtain ⟨s, hs, rfl⟩ := mem_map.mp (lb.perm_scores.mem_iff.mp hx)
  have := lb.scored s hs
  omega

section

variable (hsum : lb.scores.sum < 2 ^ 32)
include hsum

theorem sumAt_eq (i : Nat) : lb.sumAt i = (lb.scores.drop i).sum := by
  have h : ∀ (l : List (Nat × Nat)) (i : Nat), (l.map Prod.snd).sum < 2 ^ 32 →
      ((cumulateScoresSum l)[i]?.map (·.sum)).getD 0 = ((l.map Prod.snd).drop i).sum := by
    intro l
    induction l with
    | nil => simp [cumulateScoresSum]
    | cons slot l ih =>
      intro i hl
      rw [map_cons, sum_cons] at hl
      cases i with
      | zero =>
        have hhead := ih 0 (by omega)
        rw [← head?_eq_getElem?, drop_zero] at hhead
        rw [cumulateScoresSum, getElem?_cons_zero, Option.map_some, Option.getD_some, drop_zero,
          hhead, map_cons, sum_cons, Nat.mod_eq_of_lt hl]
      | succ i => exact ih i (by omega)
  rw [scores_eq] at hsum ⊢
  exact h _ i hsum

theorem sumAt_succ_lt (hi : i < lb.services.length) : lb.sumAt (i + 1) < lb.sumAt i := by
  rw [← length_scores] at hi
  rw [sumAt_eq hsum, sumAt_eq hsum, drop_eq_getElem_cons hi, sum_cons]
  have := pos_of_mem_scores (getElem_mem hi)
  omega

theorem sumAt_le (hij : i ≤ j) : lb.sumAt j ≤ lb.sumAt i := by
  rw [sumAt_eq hsum, sumAt_eq hsum]
  exact (drop_sublist_drop_left _ hij).sum_le_sum fun _ _ => Nat.zero_le _

/-- **二分探索の結果。** 範囲の長さの帰納法による。 -/
theorem dichotomicSearch_spec (needle : Nat) (hlt : start < stop)
    (hstop : stop ≤ lb.services.length) :
    start ≤ lb.dichotomicSearch needle start stop ∧ lb.dichotomicSearch needle start stop < stop ∧
      (lb.dichotomicSearch needle start stop = start ∨
        needle ≤ lb.sumAt (lb.dichotomicSearch needle start stop)) ∧
      (lb.dichotomicSearch needle start stop + 1 = stop ∨
        lb.sumAt (lb.dichotomicSearch needle start stop + 1) < needle) ∧
      ∀ r ∈ lb.dichotomicReads needle start stop, r ≤ stop := by
  fun_induction dichotomicSearch lb needle start stop with
  | case1 start stop middle hle hdiff =>
    refine ⟨Nat.le_refl _, hlt, .inl rfl, .inl (by omega), ?_⟩
    rw [dichotomicReads]
    simp only [if_pos hle, forall_mem_cons]
    exact ⟨by omega, by omega, Nat.le_refl _, by simp⟩
  | case2 start stop middle hle hdiff =>
    -- 真ん中は `start` であり、和は後ろほど小さい
    have hdec := sumAt_succ_lt hsum (hlt.trans_le hstop)
    have hmiddle : (start + stop) / 2 = start := by omega
    rw [show middle = start from hmiddle, show stop = start + 1 by omega] at hdiff
    omega
  | case3 start stop middle hle hneedle ih =>
    obtain ⟨hge, hlt', hfirst, hlast, hreads⟩ := ih (by omega) hstop
    refine ⟨by omega, hlt', .inr ?_, hlast, ?_⟩
    · rcases hfirst with h | h
      · rw [h]
        exact hneedle
      · exact h
    rw [dichotomicReads]
    simp only [if_neg hle, forall_mem_cons]
    exact ⟨by omega, by rw [if_pos hneedle]; exact hreads⟩
  | case4 start stop middle hle hneedle ih =>
    obtain ⟨hge, hlt', hfirst, hlast, hreads⟩ := ih (by omega) (by omega)
    refine ⟨hge, by omega, hfirst, .inr ?_, ?_⟩
    · rcases hlast with h | h
      · rw [h]
        exact Nat.lt_of_not_le hneedle
      · exact h
    rw [dichotomicReads]
    simp only [if_neg hle, forall_mem_cons]
    rw [if_neg hneedle]
    exact ⟨by omega, fun r hr => (hreads r hr).trans (by omega)⟩

theorem sumScored_eq : lb.sumScored = lb.scores.sum := by
  have h := sumAt_eq hsum 0
  rwa [sumAt, ← head?_eq_getElem?] at h

end

theorem countP_lt_range (a n : Nat) : (range n).countP (fun v => decide (a < v)) = n - (a + 1) := by
  induction n with
  | zero => simp
  | succ n ih =>
    rw [range_succ, countP_append, countP_singleton]
    simp only [decide_eq_true_eq]
    split <;> omega

/-- **重みの付いた乱数が score の通りに選ぶのは service が 1 つだけのとき。** -/
theorem srand_fair_iff (lb : Lb) (hne : lb.services ≠ []) (hfull : lb.sizeMax = lb.services.length)
    (hsum : (lb.services.map (·.score.toNat)).sum < 2 ^ 32) :
    ((∀ d, lb.dichotomicSearch (d.rand % 2 ^ 32 % lb.sumScored) 0 lb.services.length <
          lb.services.length ∧
        lb.nextSrand d = lb.getSlot
          (lb.dichotomicSearch (d.rand % 2 ^ 32 % lb.sumScored) 0 lb.services.length) ∧
        ∀ r ∈ lb.dichotomicReads (d.rand % 2 ^ 32 % lb.sumScored) 0 lb.services.length,
          r ≤ lb.sortedByScore.length) ∧
      ∀ i (hi : i < lb.scores.length), ((range lb.sumScored).countP fun needle =>
        lb.dichotomicSearch needle 0 lb.services.length = i) = lb.scores[i]) ↔
      lb.services.length = 1 := by
  rw [← lb.perm_scores.sum_eq] at hsum
  have hpos : 0 < lb.services.length := length_pos_iff.mpr hne
  have hspec := fun needle => dichotomicSearch_spec hsum needle hpos (Nat.le_refl _)
  have hlen := lb.length_scores
  have hcons := drop_eq_getElem_cons (i := 0) (l := lb.scores) (by omega)
  have hscore : 0 < lb.scores[0] := pos_of_mem_scores (getElem_mem _)
  have htotal : lb.sumScored = lb.scores[0] + lb.sumAt 1 := by
    rw [sumScored_eq hsum, sumAt_eq hsum, ← sum_cons, ← hcons, drop_zero]
  constructor
  · rintro ⟨-, hfair⟩
    by_contra hone
    -- 先頭の service を選ぶ値は score より 1 つ少ない
    have hiff : ∀ v ∈ range lb.sumScored,
        decide (lb.dichotomicSearch v 0 lb.services.length = 0) = true ↔
          decide (lb.sumAt 1 < v) = true := by
      intro v hv
      rw [decide_eq_true_eq, decide_eq_true_eq]
      obtain ⟨-, hlt, hle, hgt, -⟩ := hspec v
      constructor
      · intro h
        rw [h] at hgt
        exact hgt.resolve_left (by omega)
      · intro h
        by_contra hzero
        have := sumAt_le hsum (i := 1) (Nat.pos_of_ne_zero hzero)
        omega
    have hfirst := hfair 0 (by omega)
    rw [countP_congr hiff, countP_lt_range] at hfirst
    omega
  · intro hone
    have hzero : ∀ v, lb.dichotomicSearch v 0 lb.services.length = 0 := by
      intro v
      have := (hspec v).2.1
      omega
    refine ⟨fun d => ⟨(hspec _).2.1, ?_, fun r hr => ?_⟩, fun i hi => ?_⟩
    · rw [nextSrand, if_neg (by simp [hne]; omega), getByScore, if_neg (by omega),
        length_sortedByScore, hfull, Nat.mod_eq_of_lt (hspec _).2.1]
    · rw [length_sortedByScore]
      exact (hspec _).2.2.2.2 r hr
    have hi : i = 0 := by omega
    subst hi
    have hrest : lb.sumAt 1 = 0 := by
      rw [sumAt_eq hsum, drop_of_length_le (by omega)]
      rfl
    simp only [hzero, decide_true, countP_true, length_range]
    omega

/-- 1 つの service はどの値でも選ばれる -/
theorem srand_fair_one : ((range (ofScores [2] (by decide)).sumScored).countP fun needle =>
      (ofScores [2] (by decide)).dichotomicSearch needle 0 1 = 0) = 3 :=
  ((srand_fair_iff (ofScores [2] (by decide)) (by decide) rfl (by decide)).mpr rfl).2 0 (by decide)

/-- **反例。** score 1 の 2 つの service では先頭の service は選ばれない。 -/
theorem srand_never_first : (ofScores [0, 0] (by decide)).scores = [1, 1] ∧
    ∀ needle < (ofScores [0, 0] (by decide)).sumScored,
      (ofScores [0, 0] (by decide)).dichotomicSearch needle 0 2 = 1 := by
  decide +kernel

end Redcurrant.Metautils.Lb
